import HyperParallel.DTensor.Placement

/-!
# Parameters of `fully_shard`

The layout that `HSDPParamV2` gives a parameter (`core/fully_shard/hsdp_param.py`), and the piece of
it that a rank keeps.

* `HSDPParam`: the data-parallel mesh, and the TP/EP layout of the parameter on the mesh
  dimensions to its right;
* `applyDataParallelPlacements`, `initShardPlacements`, `buildShardingSpec`, `initShardedParam`;
* `sourceSlice`, `localShard`: what the rank held before, and its chunk of it.

`torch.chunk` is a parameter (`IsTorchChunk`).
-/

namespace HyperParallel.FullyShard

open HyperParallel.DTensor

/-- What a parameter is sharded over: `mesh_info.mesh` with its shard and replicate dimensions, the
mesh and placements of `source_shard_info` (empty without it), and whether the parameter is a native
`DTensor`.  The rank is its position in the concatenated mesh. -/
structure HSDPParam where
  dpShape : List ℕ
  shardMeshDim : ℕ
  replicateMeshDim : Option ℕ
  sourceShape : List ℕ
  sourcePlacements : List Placement
  origParamIsDtensor : Bool
  shape_pos : ∀ n ∈ dpShape ++ sourceShape, 0 < n
  shardMeshDim_lt : shardMeshDim < dpShape.length
  replicateMeshDim_lt : ∀ dim ∈ replicateMeshDim, dim < dpShape.length
  length_sourcePlacements : sourcePlacements.length = sourceShape.length

/-- What sharding a parameter raises. -/
inductive HSDPError
  /-- `fully_shard does not support scalar parameters` -/
  | scalarParameter
  /-- `Invalid fully_shard dim {shard_dim} for parameter {param_name} with shape {}` -/
  | invalidDim (shardDim : ℤ) (shape : List ℕ)
  /-- `fully_shard only supports uneven sharding on dim=0, but parameter {param_name} has shape {},
  shard dim {shard_dim}, and world size {shard_world_size}` -/
  | unevenSharding (shape : List ℕ) (shardDim worldSize : ℕ)
  /-- Raised by the layout. -/
  | layout (e : LayoutError)
  deriving DecidableEq, Repr

/-- An error of the layout, raised on. -/
def raiseLayout {β : Type} : Except LayoutError β → Except HSDPError β
  | .ok x => .ok x
  | .error e => .error (.layout e)

/-- A mesh dimension, with its size, multiplies the first tensor dimension that is mapped to it. -/
def multiplyFactor (ndims : ℕ) (tensorMap : List TensorMapping) (factors : List ℕ)
    (dev : ℕ × ℕ) : List ℕ :=
  match tensorMap.findIdx? fun mapping => ((ndims : ℤ) - 1 - dev.2) ∈ mapping.mappedDims with
  | some axisIdx => factors.set axisIdx (factors.getD axisIdx 1 * dev.1)
  | none => factors

/-- `DeviceMesh.get_global_shape`. -/
def getGlobalShape (meshShape sliceShape : List ℕ) (tensorMap : List TensorMapping) : List ℕ :=
  List.zipWith (· * ·) sliceShape (meshShape.zipIdx.foldl
    (multiplyFactor meshShape.length tensorMap) (List.replicate sliceShape.length 1))

namespace HSDPParam

variable (p : HSDPParam)

/-- `_spmd_mesh`. -/
def spmdMesh : List ℕ := p.dpShape ++ p.sourceShape

/-- `shard_world_size`. -/
def shardWorldSize : ℕ := p.dpShape.getD p.shardMeshDim 1

/-- `shard_rank`. -/
def shardRank (rank : ℕ) : ℕ :=
  (calculateMeshCoordinateForRank p.spmdMesh rank).getD p.shardMeshDim 0

/-- `_get_base_spmd_placements`. -/
def baseSpmdPlacements : List Placement :=
  List.replicate p.dpShape.length .replicate ++ p.sourcePlacements

/-- `_resolve_hsdp_placement`: the dimension of the `Shard` that the placement function returns, if
any. -/
def resolveHsdpPlacement (placementDim : Option ℤ) (ndim : ℕ) : ℤ :=
  match placementDim with
  | none => 0
  | some dim => if dim < 0 then dim + ndim else dim

/-- The placements with `Replicate` on the replicate dimension. -/
def replicatePlacements (placements : List Placement) : List Placement :=
  match p.replicateMeshDim with
  | some dim => if p.origParamIsDtensor then placements else placements.set dim .replicate
  | none => placements

/-- `_apply_data_parallel_placements`. -/
def applyDataParallelPlacements (placements : List Placement) (shardDim : ℤ) : List Placement :=
  let placements := p.replicatePlacements placements
  let splitFactor := (((List.range placements.length).filter fun meshIdx =>
    meshIdx ≠ p.shardMeshDim ∧ (placements.getD meshIdx .replicate).dim? = some shardDim).map
      fun meshIdx => p.spmdMesh.getD meshIdx 1).prod
  placements.set p.shardMeshDim
    (if 1 < splitFactor then .stridedShard shardDim splitFactor false else .shard shardDim false)

/-- The placement with `uneven_shard=True`. -/
def markUneven : Placement → Placement
  | .stridedShard dim splitFactor _ => .stridedShard dim splitFactor true
  | .shard dim _ => .shard dim true
  | .replicate => .replicate

/-- `_init_shard_placements`. -/
def initShardPlacements (localShape : List ℕ) (shardDim : ℕ) : Except HSDPError (List Placement) :=
  let size := localShape.getD shardDim 0
  if shardDim ≠ 0 ∧ size % p.shardWorldSize ≠ 0 then
    .error (.unevenSharding localShape shardDim p.shardWorldSize)
  else
    let placements := p.applyDataParallelPlacements p.baseSpmdPlacements shardDim
    .ok (if size % p.shardWorldSize ≠ 0 then
        placements.set p.shardMeshDim (markUneven (placements.getD p.shardMeshDim .replicate))
      else placements)

/-- The layout of the sharded parameter. -/
structure ShardingSpec where
  meshShape : List ℕ
  tensorMap : List TensorMapping
  tensorShape : List ℕ
  unevenShardMeshDims : List ℕ
  deriving DecidableEq, Repr

/-- `infer_slice_area_by_layout`. -/
def ShardingSpec.slice (spec : ShardingSpec) (rank : ℕ) : List (ℕ × ℕ) :=
  inferSliceAreaByRank spec.meshShape spec.tensorMap rank spec.tensorShape spec.unevenShardMeshDims

/-- `logical_global_size`: a native `DTensor` knows its global shape, that of a plain tensor with a
source layout is worked out from the local shape. -/
def logicalGlobalSize (globalShape localShape : List ℕ) : Except HSDPError (List ℕ) :=
  if p.origParamIsDtensor then .ok globalShape
  else do
    let sourceMap ← raiseLayout
      (placementToTensorMap p.sourceShape localShape.length p.sourcePlacements)
    return getGlobalShape p.sourceShape localShape sourceMap

/-- `_build_sharding_spec`. -/
def buildShardingSpec (globalShape localShape : List ℕ) (placements : List Placement) :
    Except HSDPError ShardingSpec := do
  let logicalGlobalSize ← p.logicalGlobalSize globalShape localShape
  let tensorMap ← raiseLayout (placementToTensorMap p.spmdMesh localShape.length placements)
  return ⟨p.spmdMesh, tensorMap, logicalGlobalSize, DTensor.unevenShardMeshDims placements⟩

/-- `_init_sharded_param`: the sharded dimension and the layout. -/
def initShardedParam (placementDim : Option ℤ) (globalShape localShape : List ℕ) :
    Except HSDPError (ℕ × ShardingSpec) :=
  let shardDim := resolveHsdpPlacement placementDim globalShape.length
  if localShape.length = 0 then .error .scalarParameter
  else if shardDim < 0 ∨ (localShape.length : ℤ) ≤ shardDim then
    .error (.invalidDim shardDim localShape)
  else do
    let placements ← p.initShardPlacements localShape shardDim.toNat
    let spec ← p.buildShardingSpec globalShape localShape placements
    return (shardDim.toNat, spec)

/-! ### What a rank holds -/

/-- `torch.chunk` along one dimension: the ranges of the chunks.  All have the size of the first, the
last may be smaller, and there may be fewer than asked for. -/
structure IsTorchChunk (chunk : ℕ → ℕ → List (ℕ × ℕ)) : Prop where
  range : ∀ size n k range, 0 < n → (chunk size n)[k]? = some range →
    range = (k * ((size + n - 1) / n), min ((k + 1) * ((size + n - 1) / n)) size) ∧ range.1 ≤ size
  fewer : ∀ size n k, 0 < n → k < n → (chunk size n).length ≤ k → size ≤ k * ((size + n - 1) / n)

/-- The slice of the parameter before `fully_shard`, under its source layout. -/
def sourceSlice (sourceMap : List TensorMapping) (globalShape : List ℕ) (rank : ℕ) : List (ℕ × ℕ) :=
  inferSliceAreaByRank p.sourceShape sourceMap (rank % p.sourceShape.prod) globalShape
    (DTensor.unevenShardMeshDims p.sourcePlacements)

/-- `local_shard`: the chunk of the rank, or the empty end. -/
def localShard (chunk : ℕ → ℕ → List (ℕ × ℕ)) (slice : List (ℕ × ℕ)) (shardDim rank : ℕ) :
    List (ℕ × ℕ) :=
  let range := slice.getD shardDim (0, 0)
  let size := range.2 - range.1
  let piece := (chunk size p.shardWorldSize).getD (p.shardRank rank) (size, size)
  slice.set shardDim (range.1 + piece.1, range.1 + piece.2)

/-- The layout says of every rank what it holds. -/
def Describes (chunk : ℕ → ℕ → List (ℕ × ℕ)) (placementDim : Option ℤ) (globalShape : List ℕ) :
    Prop :=
  ∀ sourceMap, placementToTensorMap p.sourceShape globalShape.length p.sourcePlacements =
      .ok sourceMap →
    ∀ rank < p.spmdMesh.prod, ∀ shardDim spec,
      p.initShardedParam placementDim globalShape
        (Box.lengths (p.sourceSlice sourceMap globalShape rank)) = .ok (shardDim, spec) →
      spec.slice rank =
        p.localShard chunk (p.sourceSlice sourceMap globalShape rank) shardDim rank

end HSDPParam

end HyperParallel.FullyShard

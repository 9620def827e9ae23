import HyperParallel.DTensor.Sharding
import HyperParallel.Lib.Rows
import Mathlib.Algebra.Order.Ring.Nat

/-!
# The staged gather of Muon

`core/optimizer/muon_shard.py`, with `extract_param_shard_spec` of `sharding_category.py`.

* `extractShardAxes`, `stageMetas`: the sharded mesh dimensions of a parameter, and the metadata of
  the stages;
* `fusedAllgather`: `fused_allgather_dtensor_params` on all ranks of the mesh;
* `chunkUpdate`: `chunk_update_by_layout`.
-/

open MixedRadix
open HyperParallel.DTensor

namespace HyperParallel.Optimizer

/-! ### Layouts -/

/-- `_normalize_tensor_dim` -/
def normalizeTensorDim (dim : ℤ) (tensorNdim : ℕ) : Except String ℕ :=
  let normalized := if dim < 0 then dim + tensorNdim else dim
  if normalized < 0 ∨ (tensorNdim : ℤ) ≤ normalized then
    .error s!"Invalid shard dim {dim} for tensor ndim {tensorNdim}."
  else .ok normalized.toNat

/-- `shard_axes` of `extract_param_shard_spec`: mesh dimensions with the tensor dimensions that they
shard. -/
def extractShardAxes (tensorNdim : ℕ) : ℕ → List Placement → Except String (List (ℕ × ℕ))
  | _, [] => .ok []
  | meshDim, placement :: placements =>
    match placement.dim? with
    | none => extractShardAxes tensorNdim (meshDim + 1) placements
    | some dim => do
      let tensorDim ← normalizeTensorDim dim tensorNdim
      let axes ← extractShardAxes tensorNdim (meshDim + 1) placements
      return (meshDim, tensorDim) :: axes

/-- The mesh dimensions that shard a tensor dimension, in the order in which they cut it. -/
def cutOrder (placements : List Placement) (axes : List (ℕ × ℕ)) (tensorDim : ℕ) : List ℕ :=
  effectiveShardAxes (placementFactor placements)
    ((axes.filter fun axis => axis.2 = tensorDim).map Prod.fst)

/-! ### Groups -/

section Groups

variable (mesh : Mesh)

/-- The position with another coordinate along a mesh dimension. -/
def peer (meshDim k v : ℕ) : ℕ := ofDigits mesh.shape ((mesh.coordinate k).set meshDim v)

def shardSize (meshDim : ℕ) : ℕ := mesh.shape.getD meshDim 1

/-- The process group of a mesh dimension; its ranks are sorted. -/
def shardGroup (meshDim k : ℕ) : List ℕ :=
  ((List.range (shardSize mesh meshDim)).map (peer mesh meshDim k)).insertionSort
    fun j j' => mesh.rankList.getD j 0 ≤ mesh.rankList.getD j' 0

end Groups

/-! ### The metadata of the stages -/

/-- `ParamShardStageMeta` -/
structure StageMeta where
  tensorDim : ℕ
  shardSize : ℕ
  curRankInShardGroup : ℕ
  rankShapes : List (List ℕ)
  splitSizes : List ℕ
  padShape : List ℕ

/-- The largest size of every dimension. -/
def maxShape (rankShapes : List (List ℕ)) : List ℕ :=
  (List.range (rankShapes.headD []).length).map fun dim =>
    (rankShapes.map fun shape => shape.getD dim 0).foldl max 0

def buildStageMeta (tensorDim curRank : ℕ) (rankShapes : List (List ℕ)) : StageMeta where
  tensorDim := tensorDim
  shardSize := rankShapes.length
  curRankInShardGroup := curRank
  rankShapes := rankShapes
  splitSizes := rankShapes.map fun shape => shape.getD tensorDim 0
  padShape := maxShape rankShapes

/-- The shape of a parameter behind a stage. -/
def StageMeta.outputShape (stage : StageMeta) : List ℕ :=
  let shape := stage.rankShapes.getD stage.curRankInShardGroup []
  if 1 < stage.shardSize then shape.set stage.tensorDim stage.splitSizes.sum else shape

/-- The stage of an axis on a rank, given the shapes on all ranks. -/
def stageAt (mesh : Mesh) (axis : ℕ × ℕ) (shapes : ℕ → List ℕ) (k : ℕ) : StageMeta :=
  let group := shardGroup mesh axis.1 k
  buildStageMeta axis.2 (group.idxOf k) (group.map shapes)

/-- `build_param_shard_metadata_for_group` for one parameter. -/
def stageMetas (mesh : Mesh) : List (ℕ × ℕ) → (ℕ → List ℕ) → ℕ → List StageMeta
  | [], _, _ => []
  | axis :: axes, shapes, k =>
    stageAt mesh axis shapes k ::
      stageMetas mesh axes (fun j => (stageAt mesh axis shapes j).outputShape) k

/-! ### The gather -/

variable {α : Type} [Zero α]

/-- `_GatherParamMeta` -/
structure GatherParamMeta where
  offset : ℕ
  actualNumel : ℕ
  paddedNumel : ℕ
  restShape : List ℕ
  splitSizes : List ℕ

/-- `pad_shape` with its first and its sharded size exchanged. -/
def swapFront (dim : ℕ) (shape : List ℕ) : List ℕ :=
  if dim = 0 then shape else (shape.set 0 (shape.getD dim 0)).set dim (shape.getD 0 0)

/-- `_prepare_gather_inputs`, from an offset on. -/
def prepareGatherInputs (alignment tensorDim : ℕ) :
    ℕ → List (Tensor α × StageMeta) → List (Tensor α × GatherParamMeta) × ℕ
  | total, [] => ([], total)
  | total, (tensor, stage) :: rest =>
    let input := tensor.moveFront tensorDim
    let raw := (swapFront tensorDim stage.padShape).prod
    let padded := (raw + alignment - 1) / alignment * alignment
    let next := prepareGatherInputs alignment tensorDim (total + padded) rest
    ((input, ⟨total, input.shape.prod, padded, input.shape.tail, stage.splitSizes⟩) :: next.1,
      next.2)

/-- `buffer[offset:offset + n].copy_(data)` -/
def write (buffer data : List α) (offset : ℕ) : List α :=
  buffer.take offset ++ data ++ buffer.drop (offset + data.length)

/-- The packing of `_pack_and_allgather` into a cached buffer. -/
def packBuffer (cached : List α) (total : ℕ) (inputs : List (Tensor α × GatherParamMeta)) : List α :=
  inputs.foldl (fun buffer input => write buffer input.1.data input.2.offset)
    ((cached.take total).map fun _ => 0)

/-- `_unpack_gathered_results` for one parameter, the packed buffers of the group given. -/
def unpackGathered (gathered : List (List α)) (tensorDim : ℕ) (info : GatherParamMeta) :
    Option (Tensor α) :=
  let chunks := (gathered.zip info.splitSizes).flatMap fun row =>
    ((row.1.drop info.offset).take info.paddedNumel).take (row.2 * info.restShape.prod)
  (Tensor.ofData (info.splitSizes.sum :: info.restShape) chunks).map (Tensor.moveBack tensorDim)

/-- A stage on all ranks: what each rank has of every parameter, its metadata, and the contents of
its cached buffer, of a length for which `_get_or_alloc_buffer` returns it. -/
def gatherStage (mesh : Mesh) (alignment : ℕ) (axis : ℕ × ℕ) (cached : ℕ → ℕ → List α)
    (current : ℕ → List (Tensor α × StageMeta)) (k : ℕ) : Option (List (Tensor α)) :=
  let prepared := fun j => prepareGatherInputs alignment axis.2 0 (current j)
  let packed := fun j => packBuffer (cached j (prepared j).2) (prepared j).2 (prepared j).1
  (prepared k).1.mapM fun input =>
    unpackGathered ((shardGroup mesh axis.1 k).map packed) axis.2 input.2

/-- The loop of `fused_allgather_dtensor_params` over the active axes, each with its number, on all
ranks: a stage is through when it is through on every rank. -/
def gatherAxes (mesh : Mesh) (alignment : ℕ) (cached : ℕ → ℕ → ℕ → List α)
    (metas : ℕ → List (List StageMeta)) :
    List ((ℕ × ℕ) × ℕ) → (ℕ → List (Tensor α)) → Option (List (List (Tensor α)))
  | [], current => some ((List.range mesh.shape.prod).map current)
  | (axis, idx) :: axes, current => do
    let next ← (List.range mesh.shape.prod).mapM
      (gatherStage mesh alignment axis (cached idx) fun j =>
        (current j).zip ((metas j).map fun stages => stages.getD idx ⟨0, 0, 0, [], [], []⟩))
    gatherAxes mesh alignment cached metas axes fun j => next.getD j []

/-- `fused_allgather_dtensor_params` on rank `k` -/
def fusedAllgather (mesh : Mesh) (alignment : ℕ) (cached : ℕ → ℕ → ℕ → List α)
    (axes : List (ℕ × ℕ)) (metas : ℕ → List (List StageMeta)) (locals : ℕ → List (Tensor α))
    (keep : ℕ → ℕ → Bool) (k : ℕ) : Option (List (Option (Tensor α))) :=
  let active := axes.zipIdx.filter fun axis => 1 < shardSize mesh axis.1.1
  (gatherAxes mesh alignment cached metas active locals).map fun gathered =>
    (gathered.getD k []).mapIdx fun i tensor => if keep k i then some tensor else none

/-! ### The chunks -/

/-- `narrow` -/
def narrow (t : Tensor α) (dim start length : ℕ) : Tensor α :=
  Tensor.ofEntries (t.shape.set dim length) fun idx =>
    t.entry (idx.set dim (start + idx.getD dim 0))

/-- `chunk_update_by_layout` on rank `k`, with the stages of the parameter. -/
def chunkUpdate (mesh : Mesh) (k : ℕ) (update : Tensor α) (axes : List (ℕ × ℕ))
    (stages : List StageMeta) : Tensor α :=
  (axes.zip stages).foldr (fun axis update =>
    if shardSize mesh axis.1.1 ≤ 1 then update
    else
      let localRank := (mesh.coordinate k).getD axis.1.1 0
      narrow update axis.1.2 (axis.2.splitSizes.take localRank).sum
        (axis.2.splitSizes.getD localRank 0)) update

end HyperParallel.Optimizer

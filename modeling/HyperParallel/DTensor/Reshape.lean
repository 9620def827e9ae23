import HyperParallel.DTensor.Sharding
import HyperParallel.Lib.ExceptList
import HyperParallel.Lib.Tile

/-!
# Reshape

`ReshapeDistributedOp` of `core/shard/ops/parallel_reshape.py`.

* `filterNoneSplitTensorMap`, `mergeUnsharedAxis`, `computeOutputTensorMap`: the steps of
  `_infer_reshape_layout`;
* `inferLayout`: the output layout and the local shape;
* `Correct`: every shard, reshaped on its own, is a shard of the reshaped tensor.
-/

open MixedRadix

namespace HyperParallel.DTensor.Reshape

variable {mesh : Mesh}

/-- What `infer_layout` raises. -/
inductive ReshapeError
  /-- `The total elements number of input shape {} and output shape {} are different.` -/
  | sizesDiffer (inputShape outputShape : List ℤ)
  /-- `Can not reshape {input_shape} to {dst_shape} with tensor map {x_map}` -/
  | canNotReshape (inputShape dstShape : List ℤ) (xMap : List TensorMapping)
  | zeroDivision
  | indexOutOfRange
  | layout (e : LayoutError)
  /-- `Partial dim must be replicate.` -/
  | pendingDimSharded
  deriving DecidableEq, Repr

/-- `items[i]`, a negative index counts from the end. -/
def itemAt {β : Type} (items : List β) (i : ℤ) : Except ReshapeError β :=
  match if 0 ≤ i then items[i.toNat]?
    else if -items.length ≤ i then items[(items.length + i).toNat]? else none with
  | some x => .ok x
  | none => .error .indexOutOfRange

/-- `mesh_shape[-1 - i]` -/
def meshSize (mesh : Mesh) (i : ℤ) : Except ReshapeError ℕ := itemAt mesh.shape (-1 - i)

/-! ### The input tensor map -/

/-- The axes of a tuple whose mesh dimension has more than one device. -/
def filterAxes (mesh : Mesh) : List ℤ → Except ReshapeError (List ℤ)
  | [] => .ok []
  | i :: rest => do
    let size ← meshSize mesh i
    let filtered ← filterAxes mesh rest
    return if size ≠ 1 then i :: filtered else filtered

def filterMapping (mesh : Mesh) : TensorMapping → Except ReshapeError TensorMapping
  | .axes item => do
    match ← filterAxes mesh item with
    | [] => return .axis (-1)
    | [i] => return .axis i
    | filtered => return .axes filtered
  | .axis item => do
    let size ← meshSize mesh item
    return if size ≠ 1 then .axis item else .axis (-1)

/-- `_filter_none_split_tensor_map` -/
def filterNoneSplitTensorMap (mesh : Mesh) (tensorMap : List TensorMapping) :
    Except ReshapeError (List TensorMapping) := tensorMap.mapM (filterMapping mesh)

/-! ### The target shape -/

/-- `_get_dynamic_shape_info`: the last negative size, and the total size. -/
def dynamicAxis (shape : List ℤ) : ℤ :=
  shape.zipIdx.foldl (fun axis s => if s.1 < 0 then s.2 else axis) (-1)

/-- `_handle_dynamic_shape` -/
def handleDynamicShape (inputShape outputShape : List ℤ) :
    Except ReshapeError (List ℤ × List ℤ × Bool) :=
  let inputTotalSize := inputShape.prod
  let outputTotalSize := outputShape.prod
  if ¬inputTotalSize < 0 ∧ ¬outputTotalSize < 0 then
    if inputTotalSize ≠ outputTotalSize then .error (.sizesDiffer inputShape outputShape)
    else .ok (inputShape, outputShape, false)
  else if ¬inputTotalSize < 0 then
    .ok (inputShape, outputShape.set (dynamicAxis outputShape).toNat
      ((-inputTotalSize).fdiv outputTotalSize), false)
  else if ¬outputTotalSize < 0 then
    .ok (inputShape.set (dynamicAxis inputShape).toNat
      ((-outputTotalSize).fdiv inputTotalSize), outputShape, false)
  else if outputTotalSize ≥ inputTotalSize then
    .ok (inputShape, outputShape.set (dynamicAxis outputShape).toNat
      (-inputTotalSize.fdiv outputTotalSize), true)
  else
    .ok (inputShape.set (dynamicAxis inputShape).toNat
      (-outputTotalSize.fdiv inputTotalSize), outputShape, false)

/-! ### The output tensor map -/

/-- The loop of `_merge_unshared_axis`, from the last dimension to the first. -/
def mergeAxis (axis : ℤ × TensorMapping) (state : ℤ × List (ℤ × TensorMapping)) :
    ℤ × List (ℤ × TensorMapping) :=
  if axis.2 ≠ .axis (-1) then (1, (state.1 * axis.1, axis.2) :: state.2)
  else (state.1 * axis.1, state.2)

/-- `_merge_unshared_axis`: `merged_shape` and `merged_tensor_map`, entry by entry. -/
def mergeUnsharedAxis (globalShape : List ℤ) (tensorMap : List TensorMapping) :
    Except ReshapeError (List (ℤ × TensorMapping)) :=
  if tensorMap.length < globalShape.length then .error .indexOutOfRange
  else
    let (mergedSize, merged) := (globalShape.zip tensorMap).foldr mergeAxis (1, [])
    match tensorMap with
    | [] => .error .indexOutOfRange
    | mapping :: _ =>
      .ok (if mapping = .axis (-1) then (mergedSize, .axis (-1)) :: merged else merged)

/-- The product of the sizes of the mesh dimensions of an entry. -/
def shardSize (mesh : Mesh) (mapVal : TensorMapping) : Except ReshapeError ℕ := do
  return (← mapVal.mappedDims.mapM (meshSize mesh)).prod

/-- `_validate_reshape_shard` -/
def validateReshapeShard (mesh : Mesh) (canNotReshape : ReshapeError) (mapVal : TensorMapping)
    (shape : ℤ) (dynamicCanShard : Bool) : Except ReshapeError Unit := do
  let size ← shardSize mesh mapVal
  if shape < 0 then
    if dynamicCanShard then .ok () else .error canNotReshape
  else if (size : ℤ) > shape ∨ shape.fmod size ≠ 0 then .error canNotReshape
  else .ok ()

/-- `if map_val != -1: self._validate_reshape_shard(...)` -/
def checkMapVal (mesh : Mesh) (canNotReshape : ReshapeError) (mapVal : TensorMapping) (shape : ℤ)
    (dynamicCanShard : Bool) : Except ReshapeError Unit :=
  if mapVal ≠ .axis (-1) then
    validateReshapeShard mesh canNotReshape mapVal shape dynamicCanShard
  else .ok ()

/-- The loop of `_compute_output_tensor_map`, over the target shape from its last size to its
first. -/
def matchShape (mesh : Mesh) (canNotReshape : ReshapeError) (merged : List (ℤ × TensorMapping))
    (dynamicCanShard : Bool) : List ℤ → ℤ → ℤ → List TensorMapping →
      Except ReshapeError (List TensorMapping)
  | [], _, _, output => .ok output
  | shape :: rest, curAxis, curSize, output =>
    if shape = 0 then .error .zeroDivision
    else if curSize.fmod shape ≠ 0 then .error canNotReshape
    else if curSize.fdiv shape = 1 then do
      let (_, mapVal) ← itemAt merged curAxis
      checkMapVal mesh canNotReshape mapVal shape dynamicCanShard
      let (size, _) ← itemAt merged (curAxis - 1)
      matchShape mesh canNotReshape merged dynamicCanShard rest (curAxis - 1) size
        (mapVal :: output)
    else
      matchShape mesh canNotReshape merged dynamicCanShard rest curAxis (curSize.fdiv shape)
        (.axis (-1) :: output)

/-- `_compute_output_tensor_map` -/
def computeOutputTensorMap (mesh : Mesh) (merged : List (ℤ × TensorMapping))
    (dstShape : List ℤ) (dynamicCanShard : Bool) (inputShape : List ℤ)
    (xMap : List TensorMapping) : Except ReshapeError (List TensorMapping) := do
  let (size, _) ← itemAt merged (merged.length - 1)
  matchShape mesh (.canNotReshape inputShape dstShape xMap) merged dynamicCanShard
    dstShape.reverse (merged.length - 1) size []

/-- `alias_name[-1 - i]` -/
def aliasAt (mesh : Mesh) (i : ℤ) : Except ReshapeError String := itemAt mesh.aliasName (-1 - i)

/-- One round of `_cal_output_layout_and_dst_shape`. -/
def outputEntry (mesh : Mesh) (mapId : TensorMapping) (size : ℤ) :
    Except ReshapeError (AliasEntry × ℤ) :=
  match mapId with
  | .axes ids => do
    let names ← ids.mapM (aliasAt mesh)
    let shards ← shardSize mesh mapId
    return (.names names, if size > 0 then size.fdiv shards else -1)
  | .axis id =>
    if id < 0 then .ok (.name "None", if size > 0 then size else -1)
    else do
      let name ← aliasAt mesh id
      let shards ← shardSize mesh mapId
      return (.name name, if size > 0 then size.fdiv shards else -1)

/-- `_cal_output_layout_and_dst_shape` -/
def calOutputLayoutAndDstShape (mesh : Mesh) (outputTensorMap : List TensorMapping)
    (dstShape : List ℤ) : Except ReshapeError (List AliasEntry × List ℤ) := do
  let entries ← (outputTensorMap.zip dstShape).mapM fun e => outputEntry mesh e.1 e.2
  return entries.unzip

/-- One round of `_apply_partial_status`. -/
def applyPartial (outLayout : Layout mesh) (entry : Option PartialOp × ℕ) :
    Except ReshapeError (Layout mesh) :=
  match entry.1, mesh.aliasName[entry.2]? with
  | some op, some axis =>
    match outLayout.setPartialByDevAxis axis op with
    | some outLayout => .ok outLayout
    | none => .error .pendingDimSharded
  | _, _ => .ok outLayout

/-- `_apply_partial_status` -/
def applyPartialStatus (xLayout outLayout : Layout mesh) : Except ReshapeError (Layout mesh) :=
  xLayout.pending.zipIdx.foldlM applyPartial outLayout

/-- `_infer_reshape_layout`: the output layout and `local_dst_shape`. -/
def inferLayout (xLayout : Layout mesh) (dstShape inputShape : List ℤ) :
    Except ReshapeError (Layout mesh × List ℤ) := do
  let xMap ← filterNoneSplitTensorMap mesh xLayout.tensorMap
  let (inputShape, dstShape, dynamicCanShard) ← handleDynamicShape inputShape dstShape
  let merged ← mergeUnsharedAxis inputShape xMap
  let outputTensorMap ←
    computeOutputTensorMap mesh merged dstShape dynamicCanShard inputShape xMap
  let (outputMap, localDstShape) ← calOutputLayoutAndDstShape mesh outputTensorMap dstShape
  match Layout.call mesh outputMap with
  | .error e => .error (.layout e)
  | .ok outLayout => return (← applyPartialStatus xLayout outLayout, localDstShape)

/-! ### What is asked of an accepted reshape -/

/-- A shape as the integers of the code. -/
abbrev toInts (shape : List ℕ) : List ℤ := shape.map fun n : ℕ => (n : ℤ)

/-- The target shape with its `-1` resolved. -/
def Resolves (dstShape : List ℤ) (inputShape target : List ℕ) : Prop :=
  List.Forall₂ (fun (s : ℤ) (n : ℕ) => s = -1 ∨ s = (n : ℤ)) dstShape target ∧
    target.prod = inputShape.prod

/-- Every rank's shard, reshaped to the local shape, is its shard of the reshaped tensor; the local
shape holds as many elements as the shard, every sharded dimension of the target is cut evenly, and
the pending reductions are those of the input. -/
def Correct (xLayout outLayout : Layout mesh) (inputShape : List ℕ)
    (dstShape localDstShape : List ℤ) : Prop :=
  ∃ target localShape : List ℕ, Resolves dstShape inputShape target ∧
    localDstShape = toInts localShape ∧ outLayout.Even target ∧
    (∀ d < mesh.shape.length, outLayout.pending.getD d none = xLayout.pending.getD d none) ∧
    (∀ k < mesh.shape.prod, localShape.prod = (areaShape (xLayout.area inputShape k)).prod) ∧
    ∀ (α : Type) [Zero α] (x : Tensor α), x.shape = inputShape →
      ∃ y, x.reshape target = some y ∧ ∀ k < mesh.shape.prod,
        (xLayout.toLocal x k).reshape localShape = some (outLayout.toLocal y k)

/-- What the filter leaves of an entry. -/
def kept (mesh : Mesh) (mapping : TensorMapping) : TensorMapping :=
  (filterMapping mesh mapping).toOption.getD (.axis (-1))

/-- A `"None"` is left in a tuple: the first mesh dimension has more than one device. -/
def NoneInTuple (mapping : TensorMapping) : Prop := ∃ axes, mapping = .axes axes ∧ -1 ∈ axes

/-- A `"None"` is left in the tuple of a dimension only where that dimension has, together with the
unsharded ones right after it, one element. -/
def NoneApart (xLayout : Layout mesh) (inputShape : List ℕ) : Prop :=
  ∀ before size mapping after,
    inputShape.zip xLayout.tensorMap = before ++ (size, mapping) :: after →
    NoneInTuple (kept mesh mapping) →
    size * ((after.takeWhile fun e => kept mesh e.2 = .axis (-1)).map Prod.fst).prod = 1

end HyperParallel.DTensor.Reshape

import HyperParallel.Lib.Region
import HyperParallel.WeightSync.PackedWeight

/-!
# Direct resharding

`rl/roles/weight_sync/layout.py`, and `_apply_direct_bucket` of `vllm_worker.py`: the regions the
Actor ranks hold of every tensor, the regions the rollout workers need, and the bounded buckets
that carry the one to the other.

* `SourceTensorLayout`, `DestinationTensorLayout`, with what their resolvers check;
* `buildDirectReshardPlan`: intersections, tiles, buckets for every route;
* `packDirectBucket`, `applyDirectBucket`: the bytes of a bucket, written and read;
* `ReshardRun`: the buckets of a plan delivered one after the other.
-/

namespace HyperParallel.WeightSync

/-- The region ends within the shape. -/
def Inside (region : Region) (shape : List ℕ) : Prop :=
  List.Forall₂ (fun i n => i.1 + i.2 ≤ n) region shape

instance (region : Region) (shape : List ℕ) : Decidable (Inside region shape) :=
  inferInstanceAs (Decidable (List.Forall₂ _ _ _))

/-- `SourceTensorLayout`, with the bounds `_unique_source_regions` checks. -/
structure SourceTensorLayout where
  name : String
  dtypeName : String
  elementSize : ℕ
  globalShape : List ℕ
  sourceRank : ℕ
  region : Region
  sourceKey : String
  localStarts : List ℕ
  elementSize_pos : 0 < elementSize
  inside : Inside region globalShape
  localStarts_length : localStarts.length = globalShape.length

/-- `DestinationTensorLayout`, with what `_destination_signature` and
`_parameter_destination_layouts` check. -/
structure DestinationTensorLayout where
  name : String
  dtypeName : String
  elementSize : ℕ
  globalShape : List ℕ
  tpRank : ℕ
  tpSize : ℕ
  region : Region
  targetName : String
  localStarts : List ℕ
  physicalPermutation : List ℕ
  acceptedSourceDtypes : List String
  inside : Inside region globalShape
  localStarts_length : localStarts.length = globalShape.length
  permutation : physicalPermutation.Perm (List.range globalShape.length)

/-- `TransferEntry` -/
structure TransferEntry where
  name : String
  dtypeName : String
  elementSize : ℕ
  sourceStarts : List ℕ
  destinationStarts : List ℕ
  lengths : List ℕ
  targetName : String
  sourceKey : String
  physicalPermutation : List ℕ
  bufferOffset : ℕ
  destinationDtypeName : String
  destinationElementSize : ℕ
  deriving DecidableEq

def TransferEntry.destinationLengths (e : TransferEntry) : List ℕ :=
  Region.permuted e.physicalPermutation e.lengths

def TransferEntry.numBytes (e : TransferEntry) : ℕ := e.lengths.prod * e.elementSize

def TransferEntry.withBufferOffset (e : TransferEntry) (offset : ℕ) : TransferEntry :=
  { e with bufferOffset := offset }

/-- `TransferBucket` -/
structure TransferBucket where
  entries : List TransferEntry
  totalBytes : ℕ
  deriving DecidableEq

/-- The pair of a source rank and a TP rank. -/
abbrev Route := ℕ × ℕ

/-- `DirectReshardPlan` -/
structure DirectReshardPlan where
  sourceWorldSize : ℕ
  destinationTpSize : ℕ
  bucketSizeBytes : ℕ
  buckets : List (Route × List TransferBucket)

/-- The errors, with the tensor they name. -/
inductive ReshardError
  | regionsOverlap (name : String)
  | regionsMissing (name : String)
  | bucketSize
  | parameterMismatch
  | tensorContract (name : String)
  | coverage (name : String) (tpRank : ℕ)
  | tpSizes
  | bucketTooSmall
  | exceedsBucket (name : String)
  | sourceMissing (key : String)
  | byteView (key : String)
  | sourceBytes (key : String)
  | exceedsBuffer (name : String)
  | parameterMissing (name : String)
  | dtype (name : String)
  | destinationShape (name : String)
  deriving DecidableEq

/-! ### The sources -/

/-- `_validate_source_coverage` -/
def validateSourceCoverage (name : String) (regions : List Region) (globalShape : List ℕ) :
    Except ReshardError Unit :=
  if ¬ regions.Pairwise fun left right => (Region.inter left right).Empty then
    .error (.regionsOverlap name)
  else if (regions.map Region.numel).sum ≠ globalShape.prod then .error (.regionsMissing name)
  else .ok ()

/-! ### The plan -/

/-- `_intersect_regions` -/
def intersectRegions (source destination : Region) : Option Region :=
  let region := Region.inter source destination
  if region.Empty then none else some region

/-- `_tile_region` -/
def tileRegion (region : Region) (elementSize bucketSizeBytes : ℕ) :
    Except ReshardError (List Region) :=
  let maxNumel := bucketSizeBytes / elementSize
  if maxNumel = 0 then .error .bucketTooSmall
  else if Region.numel region ≤ maxNumel then .ok [region]
  else .ok (Region.tiles region (Region.tileSizes maxNumel (region.map Prod.snd)).1)

/-- The entry of a tile of `entry`. -/
def TransferEntry.tile (entry : TransferEntry) (tile : Region) : TransferEntry :=
  { entry with
    sourceStarts := Region.shift entry.sourceStarts (tile.map Prod.fst)
    destinationStarts := Region.shift entry.destinationStarts
      (Region.permuted entry.physicalPermutation (tile.map Prod.fst))
    lengths := tile.map Prod.snd
    bufferOffset := 0 }

/-- `_split_entry` -/
def splitEntry (bucketSizeBytes : ℕ) (entry : TransferEntry) :
    Except ReshardError (List TransferEntry) := do
  let region : Region := entry.lengths.map (0, ·)
  let tiles ← tileRegion region entry.elementSize bucketSizeBytes
  if tiles = [region] then .ok [entry] else .ok (tiles.map entry.tile)

/-- `_transfer_entry` -/
def transferEntry (source : SourceTensorLayout) (destination : DestinationTensorLayout)
    (intersection : Region) : TransferEntry where
  name := source.name
  dtypeName := source.dtypeName
  elementSize := source.elementSize
  sourceStarts := Region.shift source.localStarts
    (Region.offset (intersection.map Prod.fst) (source.region.map Prod.fst))
  destinationStarts := Region.shift destination.localStarts
    (Region.permuted destination.physicalPermutation
      (Region.offset (intersection.map Prod.fst) (destination.region.map Prod.fst)))
  lengths := intersection.map Prod.snd
  targetName := destination.targetName
  sourceKey := source.sourceKey
  physicalPermutation := destination.physicalPermutation
  bufferOffset := 0
  destinationDtypeName := destination.dtypeName
  destinationElementSize := destination.elementSize

/-- The loop of `_bucketize`. -/
structure FillState where
  buckets : List TransferBucket
  current : List TransferEntry
  size : ℕ

def FillState.add (bucketSizeBytes : ℕ) (s : FillState) (entry : TransferEntry) :
    Except ReshardError FillState :=
  if bucketSizeBytes < entry.numBytes then .error (.exceedsBucket entry.name)
  else
    let offset := alignedOffset s.size entry.elementSize
    if s.current ≠ [] ∧ bucketSizeBytes < offset + entry.numBytes then
      .ok ⟨s.buckets ++ [⟨s.current, s.size⟩], [entry.withBufferOffset 0], entry.numBytes⟩
    else .ok ⟨s.buckets, s.current ++ [entry.withBufferOffset offset], offset + entry.numBytes⟩

def FillState.finish (s : FillState) : List TransferBucket :=
  if s.current = [] then s.buckets else s.buckets ++ [⟨s.current, s.size⟩]

/-- `_bucketize` -/
def bucketize (bucketSizeBytes : ℕ) (entries : List TransferEntry) :
    Except ReshardError (List TransferBucket) :=
  (entries.foldlM (FillState.add bucketSizeBytes) ⟨[], [], 0⟩).map FillState.finish

/-- The source may feed the destination. -/
def Compatible (source : SourceTensorLayout) (destination : DestinationTensorLayout) : Prop :=
  source.globalShape = destination.globalShape ∧
    (source.dtypeName = destination.dtypeName ∧ source.elementSize = destination.elementSize ∨
      source.dtypeName ∈ destination.acceptedSourceDtypes)

instance (source : SourceTensorLayout) (destination : DestinationTensorLayout) :
    Decidable (Compatible source destination) := inferInstanceAs (Decidable (_ ∧ _))

/-- The body of the two loops over the sources and the destinations of a name. -/
def routeEntry (pair : SourceTensorLayout × DestinationTensorLayout) :
    Except ReshardError (Option (Route × TransferEntry)) :=
  if ¬ Compatible pair.1 pair.2 then .error (.tensorContract pair.1.name)
  else .ok ((intersectRegions pair.1.region pair.2.region).map fun intersection =>
    ((pair.1.sourceRank, pair.2.tpRank), transferEntry pair.1 pair.2 intersection))

/-- What the entries of a tensor bring a TP rank: `coverage[(name, tp_rank)]`. -/
def coverage (entries : List (Route × TransferEntry)) (tpRank : ℕ) : ℕ :=
  ((entries.filter fun e => e.1.2 = tpRank).map fun e => e.2.lengths.prod).sum

/-- `_validate_coverage` -/
def validateCoverage (name : String) (destinations : List DestinationTensorLayout)
    (entries : List (Route × TransferEntry)) : Except ReshardError Unit :=
  destinations.forM fun destination =>
    if coverage entries destination.tpRank ≠ Region.numel destination.region then
      .error (.coverage name destination.tpRank)
    else .ok ()

/-- The entries of one tensor. -/
def tensorEntries (sources : List SourceTensorLayout) (destinations : List DestinationTensorLayout)
    (name : String) : Except ReshardError (List (Route × TransferEntry)) := do
  let destinations := destinations.filter (·.name = name)
  let entries ← ((sources.filter (·.name = name)).product destinations).mapM routeEntry
  let entries := entries.reduceOption
  validateCoverage name destinations entries
  return entries

/-- The buckets of one route. -/
def routeBuckets (bucketSizeBytes : ℕ) (entries : List (Route × TransferEntry)) (route : Route) :
    Except ReshardError (Route × List TransferBucket) := do
  let fragments ← ((entries.filter (·.1 = route)).map Prod.snd).mapM (splitEntry bucketSizeBytes)
  let buckets ← bucketize bucketSizeBytes fragments.flatten
  return (route, buckets)

/-- `build_direct_reshard_plan` -/
def buildDirectReshardPlan (sources : List SourceTensorLayout)
    (destinations : List DestinationTensorLayout) (sourceWorldSize : ℕ) (bucketSizeBytes : ℤ) :
    Except ReshardError DirectReshardPlan := do
  let names := (Dict.firstKeys SourceTensorLayout.name sources).insertionSort fun a b => a ≤ b
  if bucketSizeBytes ≤ 0 then .error .bucketSize
  else if ¬ ((∀ source ∈ sources, ∃ destination ∈ destinations, destination.name = source.name) ∧
      ∀ destination ∈ destinations, ∃ source ∈ sources, source.name = destination.name) then
    .error .parameterMismatch
  else
    let entries ← names.mapM (tensorEntries sources destinations)
    match Dict.firstKeys DestinationTensorLayout.tpSize destinations with
    | [tpSize] =>
      let buckets ← (Dict.firstKeys Prod.fst entries.flatten).mapM
        (routeBuckets bucketSizeBytes.toNat entries.flatten)
      return ⟨sourceWorldSize, tpSize, bucketSizeBytes.toNat, buckets⟩
    | _ => .error .tpSizes

/-! ### The bytes -/

/-- The shard of a tensor that a rank holds: its strides and the bytes of every element. -/
structure LocalTensor where
  elementSize : ℕ
  shape : List ℕ
  strides : List ℕ
  entry : List ℕ → List UInt8
  entry_length : ∀ idx, (entry idx).length = elementSize

/-- A parameter of a rollout worker. -/
structure Parameter where
  dtypeName : String
  elementSize : ℕ
  shape : List ℕ
  entry : List ℕ → List UInt8

/-- The lengths of `tensor[slices]`: a slice ends where the tensor does. -/
def sliceLengths (starts lengths shape : List ℕ) : List ℕ :=
  List.zipWith (fun i n => min (i.1 + i.2) n - min i.1 n) (starts.zip lengths) shape

/-- `is_contiguous` of a tensor that is not empty: the stride of a dimension of size one counts for
nothing. -/
def isContiguous : List ℕ → List ℕ → Bool
  | n :: shape, stride :: strides => (n = 1 || stride = shape.prod) && isContiguous shape strides
  | _, _ => true

/-- `tensor.contiguous().stride(-1)`: a contiguous tensor stays what it is, another one is copied. -/
def lastStride (shape strides : List ℕ) : ℕ :=
  if 0 ∈ shape ∨ isContiguous shape strides then strides.getLastD 1 else 1

/-- What `view(torch.uint8)` asks of the fragment: elements of one byte, or a dimension, the last of
them with stride one. -/
def TransferEntry.ViewsAsBytes (entry : TransferEntry) (tensor : LocalTensor) : Prop :=
  tensor.elementSize = 1 ∨ entry.lengths ≠ [] ∧
    lastStride (Region.permuted entry.physicalPermutation
        (sliceLengths entry.sourceStarts entry.lengths tensor.shape))
      (Region.permuted entry.physicalPermutation tensor.strides) = 1

instance (entry : TransferEntry) (tensor : LocalTensor) : Decidable (entry.ViewsAsBytes tensor) :=
  inferInstanceAs (Decidable (_ ∨ _))

/-- The bytes of `local_tensor(value)[source_slice].permute(permutation).contiguous()`. -/
def fragmentBytes (tensor : LocalTensor) (entry : TransferEntry) : List UInt8 :=
  let lengths := sliceLengths entry.sourceStarts entry.lengths tensor.shape
  (rowMajor (Region.permuted entry.physicalPermutation lengths)).flatMap fun idx =>
    tensor.entry (Region.shift entry.sourceStarts
      ((List.range lengths.length).map fun axis =>
        idx.getD (entry.physicalPermutation.idxOf axis) 0))

/-- The loop of `pack_direct_bucket`. -/
def packEntry (stateDict : String → Option LocalTensor) (packed : List UInt8)
    (entry : TransferEntry) : Except ReshardError (List UInt8) :=
  match stateDict entry.sourceKey with
  | none => .error (.sourceMissing entry.sourceKey)
  | some tensor =>
    if ¬ entry.ViewsAsBytes tensor then .error (.byteView entry.sourceKey)
    else if (fragmentBytes tensor entry).length ≠ entry.numBytes then
      .error (.sourceBytes entry.sourceKey)
    else if packed.length < entry.bufferOffset + entry.numBytes then
      .error (.exceedsBuffer entry.sourceKey)
    else .ok (FlatBuffer.write packed entry.bufferOffset (fragmentBytes tensor entry))

/-- `pack_direct_bucket`; `empty` is what the allocated buffer holds. -/
def packDirectBucket (stateDict : String → Option LocalTensor) (bucket : TransferBucket)
    (empty : ℕ → UInt8) : Except ReshardError (List UInt8) :=
  bucket.entries.foldlM (packEntry stateDict) ((List.range bucket.totalBytes).map empty)

/-- `target.copy_(fragment)` of the slice of a parameter; `convert` is what `copy_` does between two
dtypes. -/
def Parameter.copySlice (convert : String → String → List UInt8 → List UInt8)
    (parameter : Parameter) (entry : TransferEntry) (packed : List UInt8) : Parameter :=
  { parameter with
    entry := fun idx =>
      if Region.Mem (entry.destinationStarts.zip entry.destinationLengths) idx then
        convert entry.dtypeName entry.destinationDtypeName
          (FlatBuffer.narrow packed
            (entry.bufferOffset + MixedRadix.ofDigits entry.destinationLengths
              (Region.offset idx entry.destinationStarts) * entry.elementSize)
            entry.elementSize)
      else parameter.entry idx }

/-- The loop of `_apply_direct_bucket`. -/
def applyEntry (convert : String → String → List UInt8 → List UInt8) (packed : List UInt8)
    (parameters : String → Option Parameter) (entry : TransferEntry) :
    Except ReshardError (String → Option Parameter) :=
  match parameters entry.targetName with
  | none => .error (.parameterMissing entry.targetName)
  | some parameter =>
    if parameter.elementSize ≠ entry.destinationElementSize ∨
        parameter.dtypeName ≠ entry.destinationDtypeName then .error (.dtype entry.targetName)
    else if packed.length < entry.bufferOffset + entry.numBytes ∨
        entry.bufferOffset % entry.elementSize ≠ 0 then .error (.exceedsBuffer entry.targetName)
    else if sliceLengths entry.destinationStarts entry.destinationLengths parameter.shape ≠
        entry.destinationLengths then .error (.destinationShape entry.targetName)
    else .ok (Function.update parameters entry.targetName
      (some (parameter.copySlice convert entry packed)))

/-- `_apply_direct_bucket` -/
def applyDirectBucket (convert : String → String → List UInt8 → List UInt8)
    (parameters : String → Option Parameter) (packed : List UInt8) (bucket : TransferBucket) :
    Except ReshardError (String → Option Parameter) :=
  bucket.entries.foldlM (applyEntry convert packed) parameters

/-! ### A whole update -/

/-- What an update works on: the state dicts of the Actor ranks, what an allocated buffer holds and
what `copy_` does. -/
structure ReshardRun where
  stateDicts : ℕ → String → Option LocalTensor
  empty : ℕ → UInt8
  convert : String → String → List UInt8 → List UInt8

/-- One bucket, from its source rank to its worker. -/
def ReshardRun.deliver (run : ReshardRun) (workers : ℕ → String → Option Parameter)
    (item : Route × TransferBucket) : Except ReshardError (ℕ → String → Option Parameter) := do
  let packed ← packDirectBucket (run.stateDicts item.1.1) item.2 run.empty
  let parameters ← applyDirectBucket run.convert (workers item.1.2) packed item.2
  return Function.update workers item.1.2 parameters

/-- The buckets of a plan, each with its route. -/
def DirectReshardPlan.items (plan : DirectReshardPlan) : List (Route × TransferBucket) :=
  plan.buckets.flatMap fun route => route.2.map fun bucket => (route.1, bucket)

end HyperParallel.WeightSync

import HyperParallel.Checkpoint.Metadata
import HyperParallel.Lib.Dict
import HyperParallel.DTensor.Layout
import Mathlib.Data.List.Sort

/-!
# Save plans

`StandardSavePlanner.build_local_plan` and `build_global_plan` of `standard_planner.py`, and
`plan_ownership_masks` of `utils.py`.

* `StandardSavePlanner.buildLocalPlan`: what one rank holds;
* `planOwnershipMasks`: which rank writes an item that several ranks hold;
* `StandardSavePlanner.buildGlobalPlan`: the final plan of a rank, and the metadata of the
  checkpoint.

A dict is the list of its entries in insertion order.
-/

namespace HyperParallel.Checkpoint

open HyperParallel.DTensor

/-! ### The local plan -/

/-- The parts of a layout that place the local tensor. -/
structure SaveLayout where
  meshShape : List ℕ
  tensorMap : List TensorMapping
  unevenShardMeshDims : List ℕ
  rankList : List ℕ
  deriving DecidableEq, Repr

/-- A value of the flat state dict: a `DTensor` without ragged shards, a tensor, with its
`CHUNK_INFO` if it has one, or any other object. -/
inductive StateValue
  | dtensor (shape localShape : List ℕ) (dtype : String) (layout : Option SaveLayout)
  | tensor (shape : List ℕ) (dtype : String)
      (chunkInfo : Option (ChunkStorageMetadata × List ℕ))
  | object
  deriving DecidableEq, Repr

/-- What planning a save raises. -/
inductive SaveError
  /-- `Current rank {current_rank} not found in layout's rank_list {rank_list}` -/
  | rankNotFound (currentRank : ℕ) (rankList : List ℕ)
  /-- `Rank {rank} has no plan of its own among the {len(all_plans)} gathered plans; the gathered
  list must hold one plan per rank, in rank order.` -/
  | noOwnPlan (rank plans : ℕ)
  /-- `The {fqn} in different rank has different properties and size, properties: {} != {}, size:
  or {} != {}.` -/
  | differentTensor (fqn : String) (known properties : TensorProperties)
      (knownSize size : List ℕ)
  deriving DecidableEq, Repr

/-- `_compute_global_offsets`, for a layout. -/
def computeGlobalOffsets (globalShape : List ℕ) (layout : SaveLayout) (currentRank : ℕ) :
    Except SaveError (List ℕ) :=
  if currentRank ∉ layout.rankList then .error (.rankNotFound currentRank layout.rankList)
  else .ok ((inferSliceAreaByRank layout.meshShape layout.tensorMap
    (layout.rankList.idxOf currentRank) globalShape layout.unevenShardMeshDims).map Prod.fst)

/-- The write item of a chunk. -/
def tensorItem (fqn dtype : String) (chunk : ChunkStorageMetadata) (size : List ℕ) : WriteItem :=
  ⟨⟨fqn, chunk.offsets, none⟩, .tensor ⟨chunk, ⟨dtype, false, none⟩, size⟩⟩

/-- The write item of one entry of the state dict. -/
def writeItem (rank : ℕ) (fqn : String) : StateValue → Except SaveError WriteItem
  | .dtensor shape localShape dtype (some layout) => do
      let offsets ← computeGlobalOffsets shape layout rank
      return tensorItem fqn dtype ⟨offsets, localShape⟩ shape
  | .dtensor shape localShape dtype none =>
      .ok (tensorItem fqn dtype ⟨localShape.map fun _ => 0, localShape⟩ shape)
  | .tensor _ dtype (some (chunk, globalShape)) => .ok (tensorItem fqn dtype chunk globalShape)
  | .tensor shape dtype none => .ok (tensorItem fqn dtype ⟨shape.map fun _ => 0, shape⟩ shape)
  | .object => .ok ⟨⟨fqn, [], none⟩, .byteIo⟩

/-- `name_mapping`: the path of every flat name. -/
abbrev NameMapping := List (String × List String)

/-- `SavePlan`. -/
structure SavePlan where
  items : List WriteItem
  plannerData : Option NameMapping
  deriving DecidableEq, Repr

/-- `build_local_plan`, with the flat names if the state dict was flattened. -/
def StandardSavePlanner.buildLocalPlan (rank : ℕ) (stateDict : List (String × StateValue))
    (nameMapping : Option NameMapping) : Except SaveError SavePlan := do
  let items ← stateDict.mapM fun entry => writeItem rank entry.1 entry.2
  return ⟨items, nameMapping⟩

/-! ### Who writes what -/

/-- The place of an item: the plan and the position in it. -/
abbrev Slot := ℕ × ℕ

section Masks

variable (plans : List (List WriteItem))

/-- All items with their places, in the order in which the plans are walked. -/
def occurrences : List (WriteItem × Slot) :=
  plans.zipIdx.flatMap fun plan => plan.1.zipIdx.map fun item => (item.1, plan.2, item.2)

/-- The keys of `occurrences_by_index`, in insertion order. -/
def indexKeys : List (String × List ℕ) :=
  Dict.firstKeys (fun entry => entry.1.index.key) (occurrences plans)

/-- The places of the items with a key. -/
def holders (key : String × List ℕ) : List Slot :=
  ((occurrences plans).filter fun entry => entry.1.index.key = key).map Prod.snd

/-- `item_size`: that of the first item with the key. -/
def itemSize (key : String × List ℕ) : ℕ :=
  match (occurrences plans).find? fun entry => entry.1.index.key = key with
  | some entry =>
      match entry.1.tensorStorageSize with
      | some size => if size = 0 then 1 else size
      | none => 1
  | none => 1

/-- `_least_loaded_owner_slot`. -/
def leastLoadedOwnerSlot (storageSizes : ℕ → ℕ) : List Slot → Slot
  | [] => (0, 0)
  | slot :: slots => slots.foldl (fun best slot =>
      if storageSizes slot.1 < storageSizes best.1 then slot else best) slot

/-- The place that takes an item. -/
def ownerSlot (saveToMinimumRank : Bool) (storageSizes : ℕ → ℕ) (slots : List Slot) : Slot :=
  if saveToMinimumRank then slots.headD (0, 0) else leastLoadedOwnerSlot storageSizes slots

/-- The loop over items and their places: the places that keep them. -/
def assignOwners (saveToMinimumRank : Bool) : (ℕ → ℕ) → List (ℕ × List Slot) → List Slot
  | _, [] => []
  | storageSizes, (size, slots) :: rest =>
      let owner := ownerSlot saveToMinimumRank storageSizes slots
      owner :: assignOwners saveToMinimumRank
        (Function.update storageSizes owner.1 (storageSizes owner.1 + size)) rest

/-- The items that one plan holds, and the ones that several hold, with their sizes. -/
def holdings (several : Bool) : List (ℕ × List Slot) :=
  ((indexKeys plans).filter fun key => decide (1 < (holders plans key).length) = several).map
    fun key => (itemSize plans key, holders plans key)

/-- `duplicates` as they are dealt out: the largest first, unless the lowest plan takes all. -/
def duplicates (saveToMinimumRank : Bool) : List (ℕ × List Slot) :=
  if saveToMinimumRank then holdings plans true
  else (holdings plans true).insertionSort fun a b => b.1 ≤ a.1

/-- `plan_ownership_masks`: the places whose mask is 1. -/
def planOwnershipMasks (saveToMinimumRank : Bool) : List Slot :=
  assignOwners saveToMinimumRank (fun _ => 0)
    (holdings plans false ++ duplicates plans saveToMinimumRank)

/-- `compress(plan.items, masks[plan_index])`. -/
def keptItems (owned : List Slot) (planIndex : ℕ) (items : List WriteItem) : List WriteItem :=
  (items.zipIdx.filter fun item => (planIndex, item.2) ∈ owned).map Prod.fst

end Masks

/-! ### The global plan -/

/-- `TensorStorageMetadata` or `BytesStorageMetadata`. -/
inductive StorageMetadata
  | tensor (properties : TensorProperties) (size : List ℕ) (chunks : List ChunkStorageMetadata)
  | bytes
  deriving DecidableEq, Repr

/-- `Metadata`. `build_global_plan` leaves `storage_data` to the storage writer. -/
structure SaveMetadata where
  stateDictMetadata : List (String × StorageMetadata)
  plannerData : Option NameMapping
  storageData : Option (List ((String × List ℕ) × StorageInfo))
  deriving DecidableEq, Repr

/-- What the loop of `build_global_plan` grows: `fqn_info`, the names of the byte items and
`own_items`. -/
structure GlobalState where
  fqnInfo : List (String × TensorProperties × List ℕ × List ChunkStorageMetadata)
  byteNames : List (String × StorageMetadata)
  ownItems : List WriteItem

/-- One turn of the loop: an item of some plan. -/
def GlobalState.add (s : GlobalState) (isOwnPlan : Bool) (item : WriteItem) :
    Except SaveError GlobalState :=
  match item.data with
  | .tensor data => do
      let chunks ← match s.fqnInfo.lookup item.index.fqn with
        | none => .ok []
        | some (knownProperties, knownSize, chunks) =>
            if knownProperties ≠ data.properties ∨ knownSize ≠ data.size then
              .error (.differentTensor item.index.fqn knownProperties data.properties knownSize
                data.size)
            else .ok chunks
      let ownItems := if isOwnPlan then
          s.ownItems ++ [{ item with index := { item.index with index := some chunks.length } }]
        else s.ownItems
      return { s with
        fqnInfo := Dict.set s.fqnInfo item.index.fqn
          (data.properties, data.size, chunks ++ [data.chunk])
        ownItems }
  | .byteIo => .ok { s with
      byteNames := Dict.set s.byteNames item.index.fqn .bytes
      ownItems := if isOwnPlan then s.ownItems ++ [item] else s.ownItems }

/-- The flags of a planner that `build_global_plan` reads. -/
structure PlannerFlags where
  removeRedundancy : Bool
  saveToMinimumRank : Bool
  deriving DecidableEq, Repr

/-- The items that the loop walks, plan by plan. -/
def walkedItems (flags : PlannerFlags) (plans : List (List WriteItem)) : List (List WriteItem) :=
  if flags.removeRedundancy ∧ 1 < plans.length then
    plans.zipIdx.map fun plan =>
      keptItems (planOwnershipMasks plans flags.saveToMinimumRank) plan.2 plan.1
  else plans

/-- `build_global_plan`. -/
def StandardSavePlanner.buildGlobalPlan (rank : ℕ) (flags : PlannerFlags) (flattened : Bool)
    (allPlans : List SavePlan) : Except SaveError (SavePlan × SaveMetadata) :=
  let ownIndex := if 1 < allPlans.length then rank else 0
  match allPlans[ownIndex]? with
  | none => .error (.noOwnPlan rank allPlans.length)
  | some ownPlan => do
      let walked := (walkedItems flags (allPlans.map SavePlan.items)).zipIdx.flatMap fun plan =>
        plan.1.map fun item => (decide (plan.2 = ownIndex), item)
      let s ← walked.foldlM (fun s entry => GlobalState.add s entry.1 entry.2)
        (⟨[], [], []⟩ : GlobalState)
      let stateDictMetadata := Dict.update s.byteNames
        (s.fqnInfo.map fun entry => (entry.1, .tensor entry.2.1 entry.2.2.1 entry.2.2.2))
      let plannerData := if flattened then
          some (allPlans.foldl (fun merged plan => Dict.update merged (plan.plannerData.getD [])) [])
        else none
      return (⟨s.ownItems, ownPlan.plannerData⟩, ⟨stateDictMetadata, plannerData, none⟩)

end HyperParallel.Checkpoint

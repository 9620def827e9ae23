import HyperParallel.ExpertParallel.RoutedTokens

/-!
# Token dispatch over a two-dimensional mesh

`DeredundencyTokenDispatcher` of `core/expert_parallel/expert_parallel.py`, on all ranks of an EP
mesh. The ranks are named by their outer and inner coordinate; a communication group orders its
members by their global rank.

* `EPMesh`, `getDeredundencyMeshInfo`, `getFlattenedEpMesh`: the mesh and its coordinates;
* `generateDispatchIndices`: the rows of the shared view that go into an outer expert range;
* `Deredundency.dispatch`, `combine`, `combineStart`, `combineWait`.
-/

namespace HyperParallel.ExpertParallel

open Blocks Exchange

variable {α κ : Type}

/-! ### The mesh -/

/-- A two-dimensional mesh of distinct global ranks. -/
structure EPMesh where
  meshDimNames : String × String
  meshShape : ℕ × ℕ
  rank : Fin meshShape.1 → Fin meshShape.2 → ℕ
  distinct : ∀ a b a' b', rank a b = rank a' b' → a = a' ∧ b = b'

/-- `mesh_dim_names.index(name) if name in mesh_dim_names else default` -/
def EPMesh.dimOf (mesh : EPMesh) (name : String) (default : ℕ) : ℕ :=
  if mesh.meshDimNames.1 = name then 0
  else if mesh.meshDimNames.2 = name then 1
  else default

/-- `_DeredundencyMeshInfo` of all ranks, by outer and inner rank: their global ranks, and what they
are in the flattened mesh. -/
structure MeshInfo where
  oepSize : ℕ
  iepSize : ℕ
  rank : Fin oepSize → Fin iepSize → ℕ
  flatRank : Fin oepSize → Fin iepSize → ℕ

/-- `_get_deredundency_mesh_info`, for two dimensions. The flattened mesh runs through the mesh in
row-major order, whatever its dimensions are called. -/
def getDeredundencyMeshInfo (mesh : EPMesh) : Option MeshInfo :=
  let oepDim := mesh.dimOf "oep" 0
  let iepDim := mesh.dimOf "iep" 1
  if oepDim = iepDim then none
  else if oepDim = 0 then
    some
      { oepSize := mesh.meshShape.1
        iepSize := mesh.meshShape.2
        rank := fun o i => mesh.rank o i
        flatRank := fun o i => o.val * mesh.meshShape.2 + i.val }
  else
    some
      { oepSize := mesh.meshShape.2
        iepSize := mesh.meshShape.1
        rank := fun o i => mesh.rank i o
        flatRank := fun o i => i.val * mesh.meshShape.2 + o.val }

/-- `_get_flattened_ep_mesh` accepts the mesh: `set(mesh_dim_names) == {"oep", "iep"}`. -/
def EPMesh.Flattens (mesh : EPMesh) : Prop :=
  mesh.meshDimNames = ("oep", "iep") ∨ mesh.meshDimNames = ("iep", "oep")

variable (info : MeshInfo)

/-- The inner ranks of an iep group, and the outer ranks of an oep group, in the order of the
group. -/
def MeshInfo.iepOrder (o : Fin info.oepSize) : Equiv.Perm (Fin info.iepSize) :=
  groupOrder (info.rank o)

def MeshInfo.oepOrder (i : Fin info.iepSize) : Equiv.Perm (Fin info.oepSize) :=
  groupOrder fun o => info.rank o i

/-- All ranks in the order of the group of the flattened mesh; they are counted by outer and inner
rank. -/
def MeshInfo.epOrder : Equiv.Perm (Fin (info.oepSize * info.iepSize)) :=
  groupOrder fun d => info.rank d.divNat d.modNat

/-- The position of a rank in the group of the flattened mesh. -/
def MeshInfo.epPosition (o : Fin info.oepSize) (i : Fin info.iepSize) :
    Fin (info.oepSize * info.iepSize) :=
  info.epOrder.symm ⟨o.val * info.iepSize + i.val, index_lt o i⟩

/-- Something for every rank of the mesh. -/
abbrev MeshInfo.OnRanks (β : Type) : Type := Fin info.oepSize → Fin info.iepSize → β

/-- What the member at a position of the group of the flattened mesh has. -/
def MeshInfo.epGroup {β : Type} (x : info.OnRanks β) (p : Fin (info.oepSize * info.iepSize)) : β :=
  x (info.epOrder p).divNat (info.epOrder p).modNat

theorem MeshInfo.epGroup_epPosition {β : Type} (x : info.OnRanks β) (o : Fin info.oepSize)
    (i : Fin info.iepSize) : info.epGroup x (info.epPosition o i) = x o i := by
  rw [MeshInfo.epGroup, MeshInfo.epPosition, Equiv.apply_symm_apply, divNat_index, modNat_index]

/-- Local work on every rank of the mesh. -/
def everyMeshRank {β : Type} (f : Fin info.oepSize → Fin info.iepSize → Option β) :
    Option (info.OnRanks β) :=
  everyRank fun o => everyRank (f o)

/-- `differentiable_all_to_all_single` over the iep groups. -/
def iepAllToAllSingle (x : info.OnRanks (List α)) (inputSplits outputSplits : info.OnRanks (List ℕ)) :
    Option (info.OnRanks (List α)) :=
  everyRank fun o =>
    (allToAllSingle (x o ∘ info.iepOrder o) (inputSplits o ∘ info.iepOrder o)
      (outputSplits o ∘ info.iepOrder o)).map fun received => received ∘ (info.iepOrder o).symm

/-- `exchange_splits_via_all_to_all` over the iep groups. -/
def iepExchangeSplits (x : info.OnRanks (List ℕ)) : Option (info.OnRanks (List ℕ)) :=
  everyRank fun o =>
    (exchangeSplits (x o ∘ info.iepOrder o)).map fun received => received ∘ (info.iepOrder o).symm

/-- What an all-gather over the oep groups brings together, in the order of the group. -/
def oepGather {β : Type} (x : info.OnRanks β) (i : Fin info.iepSize) : Fin info.oepSize → β :=
  fun p => x (info.oepOrder i p) i

/-! ### Dispatch indices -/

/-- A tensor of three dimensions in row-major order. -/
def flat3 {A B C : ℕ} {β : Type} (m : Fin A → Fin B → Fin C → β) : List β :=
  concat fun a => flat (m a)

/-- `_expert_offsets_by_source`, for one source -/
def expertOffsets {n : ℕ} (countsBySource : Fin n → List ℕ) (p : Fin n) : List ℕ :=
  (exclusive (countsBySource p)).map fun offset =>
    offset + ((exclusive (List.ofFn fun s => (countsBySource s).sum))[p.val]?).getD 0

/-- `_expand_dispatch_blocks` -/
def expandDispatchBlocks (blockCounts blockStarts : List ℕ) : List ℕ :=
  if blockCounts.sum = 0 then [] else expand blockStarts blockCounts

/-- `x[expert_start:expert_end].view(iep_size, num_local_experts)`, for one source -/
def selected (x : List ℕ) (expertStart iepSize numLocalExperts : ℕ) :
    Option (Fin iepSize → Fin numLocalExperts → ℕ) :=
  view iepSize numLocalExperts ((x.drop expertStart).take (iepSize * numLocalExperts))

/-- `_generate_deredundency_dispatch_indices` -/
def generateDispatchIndices {n : ℕ} (countsBySource : Fin n → List ℕ)
    (expertStart iepSize numLocalExperts : ℕ) : Option (List ℕ × List ℕ) := do
  let selectedCounts ← everyRank fun p =>
    selected (countsBySource p) expertStart iepSize numLocalExperts
  let selectedOffsets ← everyRank fun p =>
    selected (expertOffsets countsBySource p) expertStart iepSize numLocalExperts
  -- ordered as [iep_dst, local_expert, oep_source]
  let blockCounts := flat3 fun k e p => selectedCounts p k e
  let tokenCounts := flat fun k e => ∑ p, selectedCounts p k e
  let blockStarts := flat3 fun k e p => selectedOffsets p k e
  return (expandDispatchBlocks blockCounts blockStarts, tokenCounts)

namespace Deredundency

/-- `DeredundencyDispatchContext` -/
structure Context (κ : Type) extends DispatchContext where
  dispatchIndices : List ℕ
  routerCoeff : Option (List κ)
  gatheredShape : ℕ
  oepSize : ℕ

/-- What `dispatch` returns on a rank. -/
structure Result (α κ : Type) where
  permuted : List α
  localCounts : List ℕ
  ctx : Context κ

/-- `_oep_gather_for_dispatch`, the part for the counts and its check. -/
def gatherCounts (numTokensPerExpert : info.OnRanks (List ℕ)) (routedInput : info.OnRanks (List α))
    (o : Fin info.oepSize) (i : Fin info.iepSize) : Option (Fin info.oepSize → List ℕ) :=
  if info.oepSize = 1 then some fun _ => numTokensPerExpert o i
  else
    if ∀ p, (oepGather info numTokensPerExpert i p).sum = (routedInput o i).length then
      some (oepGather info numTokensPerExpert i)
    else none

/-- `_oep_gather_for_dispatch`, the part for rows and coefficients. -/
def gatherRows {β : Type} (x : info.OnRanks (List β)) (o : Fin info.oepSize)
    (i : Fin info.iepSize) : List β :=
  if info.oepSize = 1 then x o i else concat (oepGather info x i)

/-- Coefficients, if there are any, are as many as the rows. -/
def coeffMatches (coeff : Option (List κ)) (rows : ℕ) : Bool :=
  coeff.all fun coeff => coeff.length = rows

/-- `gathered_router_coeff[dispatch_indices]`, if there are coefficients. -/
def gatherCoeff (coeff : Option (List κ)) (dispatchIndices : List ℕ) : Option (Option (List κ)) :=
  match coeff with
  | none => some none
  | some coeff => (gather coeff dispatchIndices).map some

/-- `DeredundencyTokenDispatcher.dispatch` on all ranks of the mesh. -/
def dispatch (routedInput : info.OnRanks (List α)) (numTokensPerExpert : info.OnRanks (List ℕ))
    (routerCoeff : Option (info.OnRanks (List κ))) : Option (info.OnRanks (Result α κ)) := do
  let numLocalExperts := fun o i =>
    (numTokensPerExpert o i).length / (info.oepSize * info.iepSize)
  let _ ← everyMeshRank info fun o i =>
    if coeffMatches (routerCoeff.map (· o i)) (routedInput o i).length ∧
        (numTokensPerExpert o i).length % (info.oepSize * info.iepSize) = 0 then some ()
    else none
  let gatheredCounts ← everyMeshRank info (gatherCounts info numTokensPerExpert routedInput)
  let indices ← everyMeshRank info fun o i =>
    generateDispatchIndices (gatheredCounts o i)
      (o.val * (info.iepSize * numLocalExperts o i)) info.iepSize (numLocalExperts o i)
  let iepInputSplits ← everyMeshRank info fun o i =>
    rowSums info.iepSize (numLocalExperts o i) (indices o i).2
  let iepCountsOut ← iepExchangeSplits info fun o i => (indices o i).2
  let iepOutputSplits ← everyMeshRank info fun o i =>
    rowSums info.iepSize (numLocalExperts o i) (iepCountsOut o i)
  let outerRoutedInput ← everyMeshRank info fun o i =>
    gather (gatherRows info routedInput o i) (indices o i).1
  let outerRouterCoeff ← everyMeshRank info fun o i =>
    gatherCoeff (routerCoeff.map fun coeff => gatherRows info coeff o i) (indices o i).1
  let dispatched ← iepAllToAllSingle info outerRoutedInput iepInputSplits iepOutputSplits
  let tokens ← everyMeshRank info fun o i =>
    permute (dispatched o i) (iepCountsOut o i) info.iepSize (numLocalExperts o i)
  return fun o i =>
    { permuted := (tokens o i).permutedX
      localCounts := (tokens o i).numTokensPerExpert
      ctx :=
        { inputSplits := iepInputSplits o i
          outputSplits := iepOutputSplits o i
          inputShape := (tokens o i).originalShape
          permutedIndices := (tokens o i).permutedIndices
          probsInputShape := none
          dispatchIndices := (indices o i).1
          routerCoeff := outerRouterCoeff o i
          gatheredShape := (gatherRows info routedInput o i).length
          oepSize := info.oepSize } }

/-! ### Combine -/

/-- `_scale_by_router_coeff` -/
def scaleByRouterCoeff [SMul κ α] (tokens : List α) (routerCoeff : Option (List κ)) :
    Option (List α) :=
  match routerCoeff with
  | none => some tokens
  | some coeff =>
    if coeff.length = tokens.length then some (List.zipWith (· • ·) coeff tokens) else none

/-- `_scatter_add_first_dim` -/
def scatterAddFirstDim [AddCommMonoid α] (src : List α) (indices : List ℕ) (rows : ℕ) :
    Option (List α) :=
  scatterAdd rows indices src

/-- `differentiable_reduce_scatter` with `sum`, over a group in its order. -/
def reduceScatter {n : ℕ} [AddCommMonoid α] (x : Fin n → List α) : Option (Fin n → List α) :=
  everyRank fun p =>
    -- all members must pass tensors of one shape, whose rows divide
    if ∀ s, (x s).length = (x p).length ∧ (x p).length % n = 0 then
      let size := (x p).length / n
      some ((List.range size).map fun row => ∑ s, ((x s)[p.val * size + row]?).getD 0)
    else none

/-- What follows the reverse all-to-all: scaling, the whiteboard and its reduction. -/
def finishCombine [AddCommMonoid α] [SMul κ α] (outerOutput : info.OnRanks (List α))
    (ctx : info.OnRanks (Context κ)) : Option (info.OnRanks (List α)) := do
  let weightedOutput ← everyMeshRank info fun o i =>
    scaleByRouterCoeff (outerOutput o i) (ctx o i).routerCoeff
  let combineWhiteboard ← everyMeshRank info fun o i =>
    scatterAddFirstDim (weightedOutput o i) (ctx o i).dispatchIndices (ctx o i).gatheredShape
  if info.oepSize = 1 then return combineWhiteboard
  let reduced ← everyRank fun i => reduceScatter (oepGather info combineWhiteboard i)
  return fun o i => reduced i ((info.oepOrder i).symm o)

/-- `_validate_combine_mesh`, and the local and the exchanged part of `combine`. -/
def returnRows [Zero α] (routedOutput : info.OnRanks (List α)) (ctx : info.OnRanks (Context κ)) :
    Option (info.OnRanks (List α)) := do
  let unpermuted ← everyMeshRank info fun o i =>
    if (ctx o i).oepSize = info.oepSize then
      unpermute (routedOutput o i) (ctx o i).inputShape (ctx o i).permutedIndices
    else none
  iepAllToAllSingle info unpermuted (fun o i => (ctx o i).outputSplits)
    fun o i => (ctx o i).inputSplits

/-- `DeredundencyTokenDispatcher.combine` on all ranks of the mesh. -/
def combine [AddCommMonoid α] [SMul κ α] (routedOutput : info.OnRanks (List α))
    (ctx : info.OnRanks (Context κ)) : Option (info.OnRanks (List α)) := do
  let outerOutput ← returnRows info routedOutput ctx
  finishCombine info outerOutput ctx

/-- `_DeredundencyCombineHandle` -/
structure CombineHandle (α κ : Type) where
  handle : AsyncHandle (List α)
  ctx : Context κ
  combined : Option (List α)

/-- `DeredundencyTokenDispatcher.combine_start` on all ranks of the mesh. -/
def combineStart [Zero α] (routedOutput : info.OnRanks (List α)) (ctx : info.OnRanks (Context κ)) :
    Option (info.OnRanks (CombineHandle α κ)) := do
  let outerOutput ← returnRows info routedOutput ctx
  return fun o i => ⟨⟨⟨outerOutput o i, false⟩, false⟩, ctx o i, none⟩

/-- `DeredundencyTokenDispatcher.combine_wait` on all ranks of the mesh: the first wait finishes the
combine, later ones return what it left. -/
def combineWait [AddCommMonoid α] [SMul κ α] (handles : info.OnRanks (CombineHandle α κ)) :
    Option (info.OnRanks (List α) × info.OnRanks (CombineHandle α κ)) :=
  match everyMeshRank info fun o i => (handles o i).combined with
  | some combined => some (combined, handles)
  | none => do
    let combined ← finishCombine info (fun o i => (handles o i).handle.wait.1.value)
      fun o i => (handles o i).ctx
    return (combined, fun o i =>
      { handles o i with
        handle := (handles o i).handle.wait.2
        combined := some (combined o i) })

end Deredundency

end HyperParallel.ExpertParallel

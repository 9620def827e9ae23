import HyperParallel.DTensor.Placement
import HyperParallel.Lib.ExceptList
import HyperParallel.Lib.Exchange
import Mathlib.Data.List.GetD

/-!
# Ragged shards

The geometry of `core/dtensor/_ragged_utils.py` and `ragged_to_ragged` of
`core/dtensor/tensor_redistribution.py`. A rank is given by its place along the ragged mesh
dimension.

* `computeRaggedSlice`: the flat interval of a rank;
* `computeRaggedAllToAllSplits`, `raggedToRagged`: the exchange between two ragged layouts;
* `Redistributes`: the intervals fill the flat tensor, the splits of two ranks agree, and the exchange
  delivers the target shards;
* `groupAllToAllSingle_iff`, `redistributes_iff`: it does exactly where the ranks that have elements
  stand in their process group at their places along the mesh dimension.
-/

namespace HyperParallel.DTensor.Ragged

open Blocks Exchange

variable {α : Type} {n : ℕ}

/-! ### Layouts -/

/-- `RaggedShard`: the prefix dimensions, and the relative sizes of the shards. -/
structure RaggedShard where
  dims : List ℕ
  localUnits : List ℕ
  dims_ne_nil : dims ≠ []
  dims_eq_range : dims = List.range dims.length
  sum_pos : 0 < localUnits.sum

/-- A placement of a layout that may be ragged. -/
inductive RaggedPlacement
  /-- `Replicate`, `Shard` or `StridedShard`. -/
  | normal (placement : Placement)
  /-- `Partial` -/
  | pending
  | raggedShard (placement : RaggedShard)

/-- `is_replicate` -/
def RaggedPlacement.isReplicate : RaggedPlacement → Bool
  | .normal .replicate => true
  | _ => false

/-- `RaggedShardInfo` -/
structure RaggedShardInfo where
  meshDim : ℕ
  placement : RaggedShard

inductive RaggedError
  /-- `Layout supports at most one RaggedShard placement` -/
  | twoRaggedShards
  /-- `requires a ragged layout` -/
  | notRagged
  /-- `RaggedShard phase one only supports Replicate on other mesh dimensions` -/
  | notReplicate (meshDim : ℕ)
  /-- `RaggedShard dims {dims} exceed global shape rank {rank}` -/
  | dimsExceedRank
  /-- `RaggedShard len(local_units) must equal mesh.size(mesh_dim)` -/
  | unitsLength
  /-- `RaggedShard prefix cell count must be divisible by sum(local_units)` -/
  | notDivisible
  /-- `RaggedShard local rank must be in [0, {size})` -/
  | localRankOutOfRange
  /-- `RaggedShard all-to-all requires the same ragged mesh dimension` -/
  | meshDimChanged
  /-- `RaggedShard all-to-all only supports local_units changes; dims must stay unchanged` -/
  | dimsChanged
  /-- `ragged_to_ragged only supports local_units changes on the same device mesh` -/
  | meshChanged
  /-- `RaggedShard source storage does not match all-to-all splits` -/
  | sourceStorage

/-- `_extract_ragged_shard` -/
def extractRaggedShard (placements : List RaggedPlacement) :
    Except RaggedError (Option RaggedShardInfo) :=
  placements.zipIdx.foldlM (fun raggedShard (placement, meshDim) =>
    match placement with
    | .raggedShard placement =>
      if raggedShard.isSome then .error .twoRaggedShards else .ok (some ⟨meshDim, placement⟩)
    | _ => .ok raggedShard) none

/-- The part of `Layout` that ragged shards read. -/
structure RaggedLayout where
  meshShape : List ℕ
  rankList : List ℕ
  placements : List RaggedPlacement
  raggedShard : Option RaggedShardInfo
  ofPlacements : extractRaggedShard placements = .ok raggedShard

/-! ### Intervals -/

/-- `_RaggedSlice` -/
structure RaggedSlice where
  flatStart : ℕ
  flatEnd : ℕ
  deriving DecidableEq

/-- `local_numel` -/
def RaggedSlice.localNumel (slice : RaggedSlice) : ℕ := slice.flatEnd - slice.flatStart

/-- The elements of an interval of a flat tensor. -/
def RaggedSlice.of (slice : RaggedSlice) (x : List α) : List α :=
  x.extract slice.flatStart slice.flatEnd

/-- `_compute_ragged_slice` -/
def computeRaggedSlice (globalShape : List ℕ) (layout : RaggedLayout) (localRank : ℕ) :
    Except RaggedError RaggedSlice :=
  match layout.raggedShard with
  | none => .error .notRagged
  | some info => do
    layout.placements.zipIdx.forM fun (placement, meshDim) =>
      if meshDim = info.meshDim ∨ placement.isReplicate then .ok () else .error (.notReplicate meshDim)
    let ragged := info.placement
    let prefixNdim := ragged.dims.length
    if prefixNdim > globalShape.length then .error .dimsExceedRank
    else
      let meshDimSize := layout.meshShape.getD info.meshDim 0
      if ragged.localUnits.length ≠ meshDimSize then .error .unitsLength
      else
        let prefixCells := (globalShape.take prefixNdim).prod
        let totalUnits := ragged.localUnits.sum
        if prefixCells % totalUnits ≠ 0 then .error .notDivisible
        else if localRank ≥ meshDimSize then .error .localRankOutOfRange
        else
          let cellsPerUnit := prefixCells / totalUnits
          let prefixStart := (ragged.localUnits.take localRank).sum * cellsPerUnit
          let localPrefixCells := ragged.localUnits.getD localRank 0 * cellsPerUnit
          let suffixNumel := (globalShape.drop prefixNdim).prod
          let flatStart := prefixStart * suffixNumel
          .ok ⟨flatStart, flatStart + localPrefixCells * suffixNumel⟩

/-! ### The exchange -/

/-- `_interval_overlap_size` -/
def intervalOverlapSize (first second : RaggedSlice) : ℕ :=
  min first.flatEnd second.flatEnd - max first.flatStart second.flatStart

/-- `_compute_ragged_all_to_all_splits`, on the rank with the given places in the two meshes. -/
def computeRaggedAllToAllSplits (globalShape : List ℕ) (fromLayout toLayout : RaggedLayout)
    (sourceRank targetRank : ℕ) : Except RaggedError (List ℕ × List ℕ) :=
  match fromLayout.raggedShard, toLayout.raggedShard with
  | some sourceInfo, some targetInfo =>
    if sourceInfo.meshDim ≠ targetInfo.meshDim then .error .meshDimChanged
    else if sourceInfo.placement.dims ≠ targetInfo.placement.dims then .error .dimsChanged
    else do
      let meshDim := sourceInfo.meshDim
      let sourceInterval ← computeRaggedSlice globalShape fromLayout sourceRank
      let targetInterval ← computeRaggedSlice globalShape toLayout targetRank
      let inputSplits ← (List.range (toLayout.meshShape.getD meshDim 0)).mapM fun rank =>
        (computeRaggedSlice globalShape toLayout rank).map (intervalOverlapSize sourceInterval)
      let outputSplits ← (List.range (fromLayout.meshShape.getD meshDim 0)).mapM fun rank =>
        (computeRaggedSlice globalShape fromLayout rank).map (intervalOverlapSize · targetInterval)
      return (inputSplits, outputSplits)
  | _, _ => .error .notRagged

/-- What a rank passes to the exchange. -/
def exchangeInput (globalShape : List ℕ) (fromLayout toLayout : RaggedLayout) (rank : ℕ)
    (flatInput : List α) : Except RaggedError (List ℕ × List ℕ) := do
  if fromLayout.meshShape ≠ toLayout.meshShape ∨ fromLayout.rankList ≠ toLayout.rankList then
    .error .meshChanged
  else
    let (inputSplits, outputSplits) ←
      computeRaggedAllToAllSplits globalShape fromLayout toLayout rank rank
    if flatInput.length ≠ inputSplits.sum then .error .sourceStorage
    else .ok (inputSplits, outputSplits)

/-- The global ranks along the ragged mesh dimension, in the order of the mesh; `outer` and `inner`
are the places along the dimensions before it and behind it. -/
def RaggedLayout.groupRanks (layout : RaggedLayout) (n outer inner : ℕ) : Fin n → ℕ := fun r =>
  match layout.raggedShard with
  | none => 0
  | some info =>
    layout.rankList.getD
      ((outer * n + r) * (layout.meshShape.drop (info.meshDim + 1)).prod + inner) 0

/-- `mesh.get_group(mesh_dim)`: the place along the mesh dimension of every member of the group, which
has its members by global rank. -/
def RaggedLayout.groupPlaces (layout : RaggedLayout) (n outer inner : ℕ) : Equiv.Perm (Fin n) :=
  groupOrder (layout.groupRanks n outer inner)

/-- `ragged_to_ragged`, on all ranks along the ragged mesh dimension; `none` where a rank raises
(`RaggedShard target storage does not match all-to-all splits` among others) or the ranks do not fit
together. The splits of a rank go by the places along the mesh dimension, the exchange by the
positions of the group. -/
def raggedToRagged (globalShape : List ℕ) (fromLayout toLayout : RaggedLayout) (outer inner : ℕ)
    (flatInput : Fin n → List α) : Option (Fin n → List α) := do
  let splits ← everyRank fun r =>
    (exchangeInput globalShape fromLayout toLayout r (flatInput r)).toOption
  let flatOutput ←
    if ∀ r, (splits r).1.length = 1 then some flatInput
    else
      groupAllToAllSingle (fromLayout.groupPlaces n outer inner) flatInput
        (fun r => (splits r).1) fun r => (splits r).2
  if ∀ r, (flatOutput r).length = (splits r).2.sum then some flatOutput else none

/-! ### What is accepted -/

/-- The layout is ragged along a mesh dimension of the given size, replicated along the others, and
its units cut the prefix evenly. -/
structure Accepts (layout : RaggedLayout) (globalShape : List ℕ) (n : ℕ) (info : RaggedShardInfo) :
    Prop where
  raggedShard : layout.raggedShard = some info
  replicate : ∀ p ∈ layout.placements.zipIdx, p.2 = info.meshDim ∨ p.1.isReplicate
  dims_le : info.placement.dims.length ≤ globalShape.length
  meshSize : layout.meshShape.getD info.meshDim 0 = n
  units : info.placement.localUnits.length = n
  dvd : info.placement.localUnits.sum ∣ (globalShape.take info.placement.dims.length).prod

/-- The intervals, in rank order, are the flat tensor. -/
def Partitions (slices : Fin n → RaggedSlice) (size : ℕ) : Prop :=
  (∀ r, (slices r).flatStart ≤ (slices r).flatEnd) ∧
    (concat fun r => List.range' (slices r).flatStart (slices r).localNumel) = List.range size

/-- The places of the groups along the ragged mesh dimension: the sizes of the dimensions before it
and behind it. -/
def RaggedLayout.outerSize (layout : RaggedLayout) (info : RaggedShardInfo) : ℕ :=
  (layout.meshShape.take info.meshDim).prod

def RaggedLayout.innerSize (layout : RaggedLayout) (info : RaggedShardInfo) : ℕ :=
  (layout.meshShape.drop (info.meshDim + 1)).prod

/-- The exchange turns the source shards of every flat tensor into its target shards, in every group
along the ragged mesh dimension, with splits on which the ranks agree. -/
def Redistributes (globalShape : List ℕ) (source target : RaggedLayout) (info : RaggedShardInfo)
    (n : ℕ) : Prop :=
  ∃ (sourceSlice targetSlice : Fin n → RaggedSlice) (splits : Fin n → Fin n → ℕ),
    (∀ r : Fin n, computeRaggedSlice globalShape source r = .ok (sourceSlice r)) ∧
    (∀ r : Fin n, computeRaggedSlice globalShape target r = .ok (targetSlice r)) ∧
    Partitions sourceSlice globalShape.prod ∧ Partitions targetSlice globalShape.prod ∧
    (∀ r : Fin n, computeRaggedAllToAllSplits globalShape source target r r =
      .ok (List.ofFn (splits r), List.ofFn fun s => splits s r)) ∧
    (∀ r, ∑ s, splits r s = (sourceSlice r).localNumel) ∧
    (∀ r, ∑ s, splits s r = (targetSlice r).localNumel) ∧
    ∀ outer < source.outerSize info, ∀ inner < source.innerSize info,
      ∀ (α : Type) (x : List α), x.length = globalShape.prod →
        raggedToRagged globalShape source target outer inner (fun r => (sourceSlice r).of x) =
          some fun r => (targetSlice r).of x

/-- Where the shard of a rank starts. -/
def flatBound (globalShape : List ℕ) (ragged : RaggedShard) (r : ℕ) : ℕ :=
  (ragged.localUnits.take r).sum *
      ((globalShape.take ragged.dims.length).prod / ragged.localUnits.sum) *
    (globalShape.drop ragged.dims.length).prod

/-- The interval between two bounds. -/
def between (c : ℕ → ℕ) (r : ℕ) : RaggedSlice := ⟨c r, c (r + 1)⟩

/-- Every rank that has elements before or after stands in its group at its place along the mesh
dimension. -/
def InPlace (globalShape : List ℕ) (source : RaggedLayout) (sourceInfo targetInfo : RaggedShardInfo)
    (n : ℕ) : Prop :=
  ∀ outer < source.outerSize sourceInfo, ∀ inner < source.innerSize sourceInfo, ∀ r : Fin n,
    flatBound globalShape sourceInfo.placement r <
        flatBound globalShape sourceInfo.placement (r + 1) ∨
      flatBound globalShape targetInfo.placement r <
        flatBound globalShape targetInfo.placement (r + 1) →
    source.groupPlaces n outer inner r = r

section Bounds

variable {globalShape : List ℕ} {layout : RaggedLayout} {info : RaggedShardInfo}

theorem flatBound_zero (ragged : RaggedShard) : flatBound globalShape ragged 0 = 0 := by
  simp [flatBound]

theorem flatBound_mono (ragged : RaggedShard) : Monotone (flatBound globalShape ragged) := by
  refine monotone_nat_of_le_succ fun r => ?_
  refine Nat.mul_le_mul_right _ (Nat.mul_le_mul_right _ ?_)
  rw [List.take_add, List.sum_append]
  exact Nat.le_add_right _ _

theorem Accepts.flatBound_last (h : Accepts layout globalShape n info) :
    flatBound globalShape info.placement n = globalShape.prod := by
  rw [flatBound, ← h.units, List.take_length, Nat.mul_div_cancel' h.dvd, List.prod_take_mul_prod_drop]

theorem Accepts.computeRaggedSlice_eq (h : Accepts layout globalShape n info) {r : ℕ} (hr : r < n) :
    computeRaggedSlice globalShape layout r =
      .ok (between (flatBound globalShape info.placement) r) := by
  have hreplicate : (layout.placements.zipIdx.forM fun p : RaggedPlacement × ℕ =>
      if p.2 = info.meshDim ∨ p.1.isReplicate then .ok ()
      else (.error (.notReplicate p.2) : Except RaggedError Unit)) = .ok () := by
    rw [ExceptList.forM_eq_ok]
    intro p hp
    rw [if_pos (h.replicate p hp)]
  have hlast : (info.placement.localUnits.take (r + 1)).sum =
      (info.placement.localUnits.take r).sum + info.placement.localUnits.getD r 0 := by
    have hlt : r < info.placement.localUnits.length := h.units.symm ▸ hr
    rw [List.sum_take_succ _ _ hlt, List.getD_eq_getElem _ _ hlt]
  have hstep : flatBound globalShape info.placement (r + 1) =
      flatBound globalShape info.placement r + info.placement.localUnits.getD r 0 *
        ((globalShape.take info.placement.dims.length).prod / info.placement.localUnits.sum) *
          (globalShape.drop info.placement.dims.length).prod := by
    rw [flatBound, hlast, Nat.add_mul, Nat.add_mul, flatBound]
  rw [between, hstep, computeRaggedSlice, h.raggedShard]
  simp only [hreplicate]
  change (if _ then _ else _) = _
  rw [if_neg (Nat.not_lt.2 h.dims_le), if_neg (by rw [h.units, h.meshSize, not_not]),
    if_neg (not_not.2 (Nat.mod_eq_zero_of_dvd h.dvd)), if_neg (by rw [h.meshSize]; omega)]
  rfl

theorem partitions_between {c : ℕ → ℕ} {size : ℕ} (hc : Monotone c) (h0 : c 0 = 0)
    (hlast : c n = size) : Partitions (fun r : Fin n => between c r) size := by
  refine ⟨fun r => hc r.val.le_succ, ?_⟩
  have hslice : ∀ r : Fin n, List.range' (between c r).flatStart (between c r).localNumel =
      (List.range size).extract (c r) (c (r + 1)) := by
    intro r
    have hend : c (r + 1) ≤ size := hlast ▸ hc r.isLt
    rw [List.extract_eq_take_drop, List.range_eq_range', List.drop_range',
      List.take_range'_of_length_ge (Nat.sub_le_sub_right hend _), Nat.zero_add, Nat.mul_one]
    rfl
  simp only [hslice]
  rw [concat_extract _ hc, h0, hlast, List.extract_eq_take_drop]
  simp

theorem overlaps_eq {f : ℕ → Except RaggedError RaggedSlice} {g : ℕ → RaggedSlice}
    (h : ∀ r < n, f r = .ok (g r)) (overlap : RaggedSlice → ℕ) :
    ((List.range n).mapM fun rank => (f rank).map overlap) =
      .ok (List.ofFn fun r : Fin n => overlap (g r)) := by
  rw [ExceptList.mapM_of_forall (g := fun r => overlap (g r)), List.ofFn_eq_map, ← List.map_coe_finRange_eq_range,
    List.map_map]
  · rfl
  · intro r hr
    rw [h r (List.mem_range.1 hr)]
    rfl

end Bounds

section Exchange

variable {globalShape : List ℕ} {source target : RaggedLayout} {sourceInfo targetInfo : RaggedShardInfo}

/-- What rank `r` sends to rank `s`. -/
def splitSize (c c' : ℕ → ℕ) (r s : Fin n) : ℕ := intervalOverlapSize (between c r) (between c' s)

theorem splits_eq (hs : Accepts source globalShape n sourceInfo)
    (ht : Accepts target globalShape n targetInfo) (hdim : sourceInfo.meshDim = targetInfo.meshDim)
    (hdims : sourceInfo.placement.dims = targetInfo.placement.dims) (r : Fin n) :
    computeRaggedAllToAllSplits globalShape source target r r =
      .ok (List.ofFn (splitSize (flatBound globalShape sourceInfo.placement)
          (flatBound globalShape targetInfo.placement) r),
        List.ofFn fun s => splitSize (flatBound globalShape sourceInfo.placement)
          (flatBound globalShape targetInfo.placement) s r) := by
  have hsource := fun (s : ℕ) (h : s < n) => hs.computeRaggedSlice_eq h
  have htarget := fun (s : ℕ) (h : s < n) => ht.computeRaggedSlice_eq h
  rw [computeRaggedAllToAllSplits, hs.raggedShard, ht.raggedShard]
  simp only [hdim, hdims, ne_eq, not_true_eq_false, if_false, hsource r r.isLt, htarget r r.isLt]
  rw [← hdim, hs.meshSize, hdim, ht.meshSize]
  simp only [bind, Except.bind, overlaps_eq htarget, overlaps_eq hsource]
  rfl

variable {c c' : ℕ → ℕ} {size : ℕ}

/-- A shard is what it sends, in the order of the receivers. -/
theorem concat_sent (x : List α) (hc : Monotone c) (hc' : Monotone c') (h0 : c' 0 = 0)
    (hlast : c' n = size) (r : Fin n) (hr : c (r + 1) ≤ size) :
    (concat fun s : Fin n => x.extract (max (c r) (c' s)) (min (c (r + 1)) (c' (s + 1)))) =
      (between c r).of x :=
  concat_extract_overlap x hc' h0 hlast (hc r.val.le_succ) hr

theorem concat_received (x : List α) (hc : Monotone c) (hc' : Monotone c') (h0 : c 0 = 0)
    (hlast : c n = size) (s : Fin n) (hs : c' (s + 1) ≤ size) :
    (concat fun r : Fin n => x.extract (max (c r) (c' s)) (min (c (r + 1)) (c' (s + 1)))) =
      (between c' s).of x := by
  rw [← concat_sent x hc' hc h0 hlast s hs]
  simp only [max_comm, min_comm]

theorem length_piece {x : List α} {r s : Fin n} (hx : c (r + 1) ≤ x.length) :
    (x.extract (max (c r) (c' s)) (min (c (r + 1)) (c' (s + 1)))).length = splitSize c c' r s :=
  length_extract x (le_trans (min_le_left _ _) hx)

theorem le_last (hc : Monotone c) (hlast : c n = size) (r : Fin n) : c (r + 1) ≤ size :=
  hlast ▸ hc r.isLt

theorem sum_sent (hc : Monotone c) (hlast : c n = size) (hc' : Monotone c') (h0' : c' 0 = 0)
    (hlast' : c' n = size) (r : Fin n) : ∑ s, splitSize c c' r s = (between c r).localNumel := by
  have hr := le_last hc hlast r
  have hsize : c (r + 1) ≤ (List.range size).length := by rwa [List.length_range]
  have hlength := congrArg List.length (concat_sent (List.range size) hc hc' h0' hlast' r hr)
  rw [length_concat, RaggedSlice.of, between, length_extract _ hsize] at hlength
  rw [RaggedSlice.localNumel, between, ← hlength]
  exact Finset.sum_congr rfl fun s _ => (length_piece hsize).symm

theorem sum_received (hc : Monotone c) (h0 : c 0 = 0) (hlast : c n = size) (hc' : Monotone c')
    (hlast' : c' n = size) (s : Fin n) : ∑ r, splitSize c c' r s = (between c' s).localNumel := by
  rw [← sum_sent hc' hlast' hc h0 hlast s]
  refine Finset.sum_congr rfl fun r _ => ?_
  simp only [splitSize, intervalOverlapSize, max_comm, min_comm]

/-! ### Groups in another order -/

/-- The elements that go from place `r` to place `s`. -/
def piece (x : List α) (c c' : ℕ → ℕ) (r s : Fin n) : List α :=
  x.extract (max (c r) (c' s)) (min (c (r + 1)) (c' (s + 1)))

theorem mem_extract_range {a b size e : ℕ} :
    e ∈ (List.range size).extract a b ↔ a ≤ e ∧ e < b ∧ e < size := by
  rw [List.extract_eq_take_drop, List.mem_take_iff_getElem]
  simp only [List.getElem_drop, List.getElem_range, List.length_drop, List.length_range]
  constructor
  · rintro ⟨i, hi, rfl⟩
    omega
  · rintro ⟨ha, hb, hsize⟩
    exact ⟨e - a, by omega, by omega⟩

theorem extract_of_le (x : List α) {a b : ℕ} (h : b ≤ a) : x.extract a b = [] := by
  rw [List.extract_eq_take_drop, Nat.sub_eq_zero_of_le h, List.take_zero]

/-- An element is in one interval only. -/
theorem place_unique (hc : Monotone c) {r s : Fin n} {e : ℕ} (hr : c r ≤ e) (hr' : e < c (r + 1))
    (hs : c s ≤ e) (hs' : e < c (s + 1)) : r = s := by
  rcases lt_trichotomy r s with hlt | heq | hlt
  · have := hc (show r.val + 1 ≤ s.val from hlt)
    omega
  · exact heq
  · have := hc (show s.val + 1 ≤ r.val from hlt)
    omega

theorem exists_place (hc : Monotone c) (h0 : c 0 = 0) (hlast : c n = size) {e : ℕ} (he : e < size) :
    ∃ s : Fin n, c s ≤ e ∧ e < c (s + 1) := by
  have hex : ∃ k, e < c k := ⟨n, hlast.symm ▸ he⟩
  obtain ⟨hlt, hmin⟩ := And.intro (Nat.find_spec hex) fun k => Nat.find_min (m := k) hex
  have hpos : Nat.find hex ≠ 0 := fun h => by rw [h, h0] at hlt; omega
  obtain ⟨k, hk⟩ := Nat.exists_eq_succ_of_ne_zero hpos
  rw [hk] at hlt
  have hle := Nat.le_of_not_lt (hmin k (by omega))
  have hkn : k < n := by
    by_contra hge
    have := hc (Nat.le_of_not_lt hge)
    omega
  exact ⟨⟨k, hkn⟩, hle, hlt⟩

/-- What arrives in a group: by position, the pieces of the members for the position. -/
theorem groupAllToAllSingle_between (σ : Equiv.Perm (Fin n)) (x : List α) (hx : x.length = size)
    (hc : Monotone c) (hlast : c n = size) (hc' : Monotone c') (h0' : c' 0 = 0)
    (hlast' : c' n = size) {y : Fin n → List α} :
    groupAllToAllSingle σ (fun r : Fin n => (between c r).of x)
        (fun r => List.ofFn (splitSize c c' r)) (fun s => List.ofFn fun r => splitSize c c' r s) =
        some y ↔
      (∀ r s, splitSize c c' r (σ s) = splitSize c c' (σ r) s) ∧
        ∀ s, y (σ s) = concat fun r => piece x c c' (σ r) s := by
  have hpiece : ∀ r s : Fin n, (piece x c c' (σ r) s).length = splitSize c c' (σ r) s :=
    fun r s => length_piece (hx ▸ le_last hc hlast (σ r))
  have hsent : ((fun r : Fin n => (between c r).of x) ∘ σ) =
      fun r => concat (piece x c c' (σ r)) := by
    funext r
    exact (concat_sent x hc hc' h0' hlast' (σ r) (le_last hc hlast (σ r))).symm
  have hmap : ∀ o : Option (Fin n → List α), o.map (· ∘ σ.symm) = some y ↔ o = some (y ∘ σ) := by
    intro o
    cases o with
    | none => simp
    | some z =>
      simp only [Option.map_some, Option.some.injEq]
      rw [Equiv.comp_symm_eq]
  unfold groupAllToAllSingle
  rw [hmap, hsent]
  refine (allToAllSingle_eq_some_iff hpiece).trans (and_congr ?_ Iff.rfl)
  simp only [Function.comp_apply, List.ofFn_inj, funext_iff]
  exact ⟨fun h r s => h s r, fun h s r => h r s⟩

/-- A group whose members with elements stand in place exchanges as if all did. -/
theorem piece_of_inPlace {σ : Equiv.Perm (Fin n)} {x : List α}
    (hσ : ∀ r : Fin n, c r < c (r + 1) ∨ c' r < c' (r + 1) → σ r = r) (r s : Fin n) :
    piece x c c' (σ r) s = piece x c c' r s := by
  by_cases hr : σ r = r
  · rw [hr]
  · -- neither member has elements
    have hempty := mt (hσ r) hr
    have hempty' := mt (hσ (σ r)) fun h => hr (σ.injective h)
    unfold piece
    rw [extract_of_le x (by omega), extract_of_le x (by omega)]

theorem splitSize_of_inPlace {σ : Equiv.Perm (Fin n)}
    (hσ : ∀ r : Fin n, c r < c (r + 1) ∨ c' r < c' (r + 1) → σ r = r) (r s : Fin n) :
    splitSize c c' (σ r) s = splitSize c c' r s ∧ splitSize c c' r (σ s) = splitSize c c' r s := by
  have hzero : ∀ k : Fin n, σ k ≠ k → c (k + 1) ≤ c k ∧ c' (k + 1) ≤ c' k ∧
      c (σ k + 1) ≤ c (σ k) ∧ c' (σ k + 1) ≤ c' (σ k) := by
    intro k hk
    have hempty := mt (hσ k) hk
    have hempty' := mt (hσ (σ k)) fun h => hk (σ.injective h)
    omega
  unfold splitSize intervalOverlapSize between
  constructor
  · by_cases hr : σ r = r
    · rw [hr]
    · have := hzero r hr
      simp only
      omega
  · by_cases hs : σ s = s
    · rw [hs]
    · have := hzero s hs
      simp only
      omega

/-- The exchange delivers the target shards exactly where the members that have elements stand in
place. -/
theorem groupAllToAllSingle_iff (σ : Equiv.Perm (Fin n)) (hc : Monotone c) (h0 : c 0 = 0)
    (hlast : c n = size) (hc' : Monotone c') (h0' : c' 0 = 0) (hlast' : c' n = size) :
    (∀ (α : Type) (x : List α), x.length = size →
      groupAllToAllSingle σ (fun r : Fin n => (between c r).of x)
        (fun r => List.ofFn (splitSize c c' r)) (fun s => List.ofFn fun r => splitSize c c' r s) =
          some fun s : Fin n => (between c' s).of x) ↔
      ∀ r : Fin n, c r < c (r + 1) ∨ c' r < c' (r + 1) → σ r = r := by
  constructor
  · intro h
    obtain ⟨hsplit, harrive⟩ := (groupAllToAllSingle_between σ (List.range size)
      List.length_range hc hlast hc' h0' hlast').1 (h ℕ (List.range size) List.length_range)
    have htarget : ∀ r : Fin n, c' r < c' (r + 1) → σ r = r := by
      intro r hr
      -- the first element of the target shard comes from a piece for the position of the member
      have hmem : c' r ∈ (between c' (σ (σ.symm r))).of (List.range size) := by
        rw [Equiv.apply_symm_apply]
        exact mem_extract_range.2 ⟨le_rfl, hr, hr.trans_le (le_last hc' hlast' r)⟩
      rw [harrive (σ.symm r)] at hmem
      obtain ⟨s, hs⟩ := mem_concat.1 hmem
      obtain ⟨hle, hlt, -⟩ := mem_extract_range.1 hs
      have hsame := place_unique hc' (r := r) (s := σ.symm r) le_rfl hr (by omega) (by omega)
      exact (Equiv.eq_symm_apply σ).1 hsame
    rintro r (hr | hr)
    · obtain ⟨d, hd, hd'⟩ := exists_place hc' h0' hlast' (hr.trans_le (le_last hc hlast r))
      have hfix := htarget d (by omega)
      have hlengths : ∀ k, (piece (List.range size) c c' k d).length =
          (piece (List.range size) c c' (σ k) d).length := fun k => by
        have hsize : ∀ k : Fin n, c (k + 1) ≤ (List.range size).length := fun k => by
          rw [List.length_range]; exact le_last hc hlast k
        rw [piece, piece, length_piece (hsize k), length_piece (hsize (σ k)), ← hsplit, hfix]
      have hreceived : concat (fun k => piece (List.range size) c c' k d) =
          concat fun k => piece (List.range size) c c' (σ k) d :=
        (concat_received (List.range size) hc hc' h0 hlast d (le_last hc' hlast' d)).trans
          ((congrArg (fun k : Fin n => (between c' k).of (List.range size)) hfix.symm).trans
            (harrive d))
      have hpieces := concat_inj hlengths hreceived r
      have hmem : c r ∈ piece (List.range size) c c' (σ r) d := by
        rw [← hpieces]
        exact mem_extract_range.2 ⟨by omega, by omega, hr.trans_le (le_last hc hlast r)⟩
      obtain ⟨hle, hlt, -⟩ := mem_extract_range.1 hmem
      exact (place_unique hc (r := r) (s := σ r) le_rfl hr (by omega) (by omega)).symm
    · exact htarget r hr
  · intro hσ α x hx
    rw [groupAllToAllSingle_between σ x hx hc hlast hc' h0' hlast']
    refine ⟨fun r s => ?_, fun s => ?_⟩
    · rw [(splitSize_of_inPlace hσ r s).1, (splitSize_of_inPlace hσ r s).2]
    · simp only [piece_of_inPlace hσ]
      rw [show (concat fun r => piece x c c' r s) = (between c' s).of x from
        concat_received x hc hc' h0 hlast s (le_last hc' hlast' s)]
      by_cases hs : σ s = s
      · rw [hs]
      · have hempty := mt (hσ s) hs
        have hempty' := mt (hσ (σ s)) fun h => hs (σ.injective h)
        unfold RaggedSlice.of between
        rw [extract_of_le x (by simp only; omega), extract_of_le x (by simp only; omega)]

theorem raggedToRagged_iff (hs : Accepts source globalShape n sourceInfo)
    (ht : Accepts target globalShape n targetInfo) (hmesh : source.meshShape = target.meshShape)
    (hranks : source.rankList = target.rankList) (hdim : sourceInfo.meshDim = targetInfo.meshDim)
    (hdims : sourceInfo.placement.dims = targetInfo.placement.dims) (outer inner : ℕ) :
    (∀ (α : Type) (x : List α), x.length = globalShape.prod →
      raggedToRagged globalShape source target outer inner
          (fun r : Fin n => (between (flatBound globalShape sourceInfo.placement) r).of x) =
        some fun r : Fin n => (between (flatBound globalShape targetInfo.placement) r).of x) ↔
      ∀ r : Fin n, flatBound globalShape sourceInfo.placement r <
          flatBound globalShape sourceInfo.placement (r + 1) ∨
        flatBound globalShape targetInfo.placement r <
          flatBound globalShape targetInfo.placement (r + 1) →
        source.groupPlaces n outer inner r = r := by
  set c := flatBound globalShape sourceInfo.placement with hc
  set c' := flatBound globalShape targetInfo.placement with hc'
  have hmono : Monotone c := flatBound_mono _
  have hmono' : Monotone c' := flatBound_mono _
  have hlength : ∀ {α : Type} (x : List α), x.length = globalShape.prod → ∀ r : Fin n,
      ((between c r).of x).length = (List.ofFn (splitSize c c' r)).sum := by
    intro α x hx r
    rw [List.sum_ofFn, sum_sent hmono hs.flatBound_last hmono' (flatBound_zero _) ht.flatBound_last]
    exact length_extract x (hx ▸ le_last hmono hs.flatBound_last r)
  have hlength' : ∀ {α : Type} (x : List α), x.length = globalShape.prod → ∀ s : Fin n,
      ((between c' s).of x).length = (List.ofFn fun r => splitSize c c' r s).sum := by
    intro α x hx s
    rw [List.sum_ofFn, sum_received hmono (flatBound_zero _) hs.flatBound_last hmono'
      ht.flatBound_last]
    exact length_extract x (hx ▸ le_last hmono' ht.flatBound_last s)
  have hinput : ∀ {α : Type} (x : List α), x.length = globalShape.prod → everyRank (fun r : Fin n =>
      (exchangeInput globalShape source target r ((between c r).of x)).toOption) =
        some fun r => (List.ofFn (splitSize c c' r), List.ofFn fun s => splitSize c c' s r) := by
    intro α x hx
    rw [everyRank_eq_some_iff]
    intro r
    rw [exchangeInput, if_neg (by simp [hmesh, hranks]), splits_eq hs ht hdim hdims]
    exact congrArg Except.toOption (if_neg (not_not.2 (hlength x hx r)))
  rw [← groupAllToAllSingle_iff (source.groupPlaces n outer inner) hmono (flatBound_zero _)
    hs.flatBound_last hmono' (flatBound_zero _) ht.flatBound_last]
  refine forall₂_congr fun α x => forall_congr' fun hx => ?_
  unfold raggedToRagged
  rw [hinput x hx]
  simp only [Option.bind_eq_bind, Option.bind_some, List.length_ofFn]
  by_cases hone : ∀ _ : Fin n, n = 1
  · -- a single rank keeps its shard, which is the whole tensor
    have hwhole : (fun r : Fin n => (between c r).of x) = fun r : Fin n => (between c' r).of x := by
      funext r
      have hr : r.val = 0 := by
        have := hone r
        omega
      have hend : c (r + 1) = c' (r + 1) := by
        have hlast : r.val + 1 = n := by
          have := hone r
          omega
        rw [hlast]
        exact hs.flatBound_last.trans ht.flatBound_last.symm
      have hstart : c r = c' r := by
        rw [hr]
        exact (flatBound_zero _).trans (flatBound_zero _).symm
      rw [between, between, hstart, hend]
    have hsum : ∀ r : Fin n, ((between c r).of x).length =
        (List.ofFn fun s => splitSize c c' s r).sum := fun r =>
      (congrArg List.length (congrFun hwhole r)).trans (hlength' x hx r)
    have hplaces : ∀ r : Fin n, source.groupPlaces n outer inner r = r := fun r => by
      have := hone r
      omega
    rw [if_pos hone, if_pos hsum]
    exact iff_of_true (congrArg some hwhole) ((groupAllToAllSingle_iff _ hmono (flatBound_zero _)
      hs.flatBound_last hmono' (flatBound_zero _) ht.flatBound_last).2 (fun r _ => hplaces r) α x hx)
  · rw [if_neg hone]
    cases groupAllToAllSingle (source.groupPlaces n outer inner)
        (fun r : Fin n => (between c r).of x) (fun r => List.ofFn (splitSize c c' r))
        (fun s => List.ofFn fun r => splitSize c c' r s) with
    | none => simp
    | some y =>
      rw [Option.bind_some, Option.some.injEq]
      constructor
      · intro h
        split_ifs at h
        exact Option.some.inj h
      · rintro rfl
        exact if_pos (hlength' x hx)

end Exchange

/-- Between accepted layouts that differ in their units alone, the exchange is right exactly where
the ranks that have elements stand in their group at their places. -/
theorem redistributes_iff {globalShape : List ℕ} {source target : RaggedLayout}
    {sourceInfo targetInfo : RaggedShardInfo} (hs : Accepts source globalShape n sourceInfo)
    (ht : Accepts target globalShape n targetInfo) (hmesh : source.meshShape = target.meshShape)
    (hranks : source.rankList = target.rankList) (hdim : sourceInfo.meshDim = targetInfo.meshDim)
    (hdims : sourceInfo.placement.dims = targetInfo.placement.dims) :
    Redistributes globalShape source target sourceInfo n ↔
      InPlace globalShape source sourceInfo targetInfo n := by
  have hmono : Monotone (flatBound globalShape sourceInfo.placement) := flatBound_mono _
  have hmono' : Monotone (flatBound globalShape targetInfo.placement) := flatBound_mono _
  have h0 : flatBound globalShape sourceInfo.placement 0 = 0 := flatBound_zero _
  have h0' : flatBound globalShape targetInfo.placement 0 = 0 := flatBound_zero _
  have hiff := raggedToRagged_iff hs ht hmesh hranks hdim hdims
  constructor
  · rintro ⟨sourceSlice, targetSlice, splits, hsource, htarget, -, -, -, -, -, h⟩
    obtain rfl : sourceSlice = fun r : Fin n =>
        between (flatBound globalShape sourceInfo.placement) r :=
      funext fun r => Except.ok.inj ((hsource r).symm.trans (hs.computeRaggedSlice_eq r.isLt))
    obtain rfl : targetSlice = fun r : Fin n =>
        between (flatBound globalShape targetInfo.placement) r :=
      funext fun r => Except.ok.inj ((htarget r).symm.trans (ht.computeRaggedSlice_eq r.isLt))
    exact fun outer houter inner hinner => (hiff outer inner).1 (h outer houter inner hinner)
  · intro h
    exact ⟨_, _, splitSize _ _, fun r => hs.computeRaggedSlice_eq r.isLt,
      fun r => ht.computeRaggedSlice_eq r.isLt, partitions_between hmono h0 hs.flatBound_last,
      partitions_between hmono' h0' ht.flatBound_last, splits_eq hs ht hdim hdims,
      sum_sent hmono hs.flatBound_last hmono' h0' ht.flatBound_last,
      sum_received hmono h0 hs.flatBound_last hmono' ht.flatBound_last,
      fun outer houter inner hinner => (hiff outer inner).2 (h outer houter inner hinner)⟩

section TwoRanks

/-- The first dimension over two ranks. -/
def rowShard (first second : ℕ) (hpos : 0 < first + second) : RaggedShard where
  dims := [0]
  localUnits := [first, second]
  dims_ne_nil := by decide
  dims_eq_range := rfl
  sum_pos := by simpa using hpos

/-- Two ranks in the given order. -/
def rowLayout (ranks : List ℕ) (first second : ℕ) (hpos : 0 < first + second) : RaggedLayout where
  meshShape := [2]
  rankList := ranks
  placements := [.raggedShard (rowShard first second hpos)]
  raggedShard := some ⟨0, rowShard first second hpos⟩
  ofPlacements := rfl

theorem accepts_rowLayout (ranks : List ℕ) (first second : ℕ) (hpos : 0 < first + second)
    (hdvd : first + second ∣ 4) :
    Accepts (rowLayout ranks first second hpos) [4, 3] 2 ⟨0, rowShard first second hpos⟩ where
  raggedShard := rfl
  replicate := by simp [rowLayout]
  dims_le := by simp [rowShard]
  meshSize := rfl
  units := rfl
  dvd := by simpa [rowShard] using hdvd

theorem redistributes_iff_two_rows :
    Redistributes [4, 3] (rowLayout [0, 1] 1 3 (by decide)) (rowLayout [0, 1] 2 0 (by decide))
      ⟨0, rowShard 1 3 (by decide)⟩ 2 := by
  refine (redistributes_iff (accepts_rowLayout [0, 1] 1 3 (by decide) (by decide))
    (accepts_rowLayout [0, 1] 2 0 (by decide) (by decide)) rfl rfl rfl rfl).2 ?_
  intro outer houter inner hinner r _
  obtain rfl : outer = 0 := Nat.lt_one_iff.1 houter
  obtain rfl : inner = 0 := Nat.lt_one_iff.1 hinner
  have hsorted : (rowLayout [0, 1] 1 3 (by decide)).groupPlaces 2 0 0 = Equiv.refl _ :=
    Tuple.sort_eq_refl_iff_monotone.2 (by decide)
  rw [hsorted, Equiv.refl_apply]

/-- The rank list of the mesh is `(1, 0)`: the place 0 stands at position 1 of the group. -/
theorem not_redistributes_reversed :
    ¬ Redistributes [4, 3] (rowLayout [1, 0] 1 3 (by decide)) (rowLayout [1, 0] 2 2 (by decide))
      ⟨0, rowShard 1 3 (by decide)⟩ 2 := by
  rintro ⟨sourceSlice, targetSlice, splits, hsource, htarget, -, -, -, -, -, h⟩
  have hs := accepts_rowLayout [1, 0] 1 3 (by decide) (by decide)
  have ht := accepts_rowLayout [1, 0] 2 2 (by decide) (by decide)
  obtain rfl : sourceSlice = fun r : Fin 2 => between (flatBound [4, 3] (rowShard 1 3 (by decide))) r :=
    funext fun r => Except.ok.inj ((hsource r).symm.trans (hs.computeRaggedSlice_eq r.isLt))
  obtain rfl : targetSlice = fun r : Fin 2 => between (flatBound [4, 3] (rowShard 2 2 (by decide))) r :=
    funext fun r => Except.ok.inj ((htarget r).symm.trans (ht.computeRaggedSlice_eq r.isLt))
  have hplace := (raggedToRagged_iff hs ht rfl rfl rfl rfl 0 0).1
    (h 0 (by decide) 0 (by decide)) 0 (Or.inl (by decide))
  have hmono := Tuple.monotone_sort
    ((rowLayout [1, 0] 1 3 (by decide)).groupRanks 2 0 0) (show (0 : Fin 2) ≤ 1 by decide)
  have hother : (rowLayout [1, 0] 1 3 (by decide)).groupPlaces 2 0 0 1 = 1 := by
    have hne : (rowLayout [1, 0] 1 3 (by decide)).groupPlaces 2 0 0 1 ≠ 0 := fun heq => by
      have := (Equiv.injective _) (hplace.trans heq.symm)
      exact absurd this (by decide)
    omega
  change (rowLayout [1, 0] 1 3 (by decide)).groupRanks 2 0 0
      ((rowLayout [1, 0] 1 3 (by decide)).groupPlaces 2 0 0 0) ≤
    (rowLayout [1, 0] 1 3 (by decide)).groupRanks 2 0 0
      ((rowLayout [1, 0] 1 3 (by decide)).groupPlaces 2 0 0 1) at hmono
  rw [hplace, hother] at hmono
  exact absurd hmono (by decide)

end TwoRanks

end HyperParallel.DTensor.Ragged

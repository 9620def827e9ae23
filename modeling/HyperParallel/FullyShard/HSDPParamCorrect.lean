import HyperParallel.FullyShard.ShardAxes
import HyperParallel.Lib.Tensor

/-!
# The layout of a sharded parameter

The layout that `fully_shard` builds describes the piece that a rank keeps.  The mesh dimensions of
the source cut first and the shard dimension last (`foldl_effective`), and its cut is the chunk of
`torch.chunk` (`cutSlice_shardMeshDim`).
-/

namespace HyperParallel.FullyShard

open HyperParallel.DTensor

namespace HSDPParam

variable {p : HSDPParam} {ndim d j m : ℕ} {Y : Placement}

/-! ### The placements -/

section Placements

theorem getD_base_of_lt (h : m < p.dpShape.length) :
    p.baseSpmdPlacements.getD m .replicate = .replicate := by
  rw [baseSpmdPlacements, List.getD_append _ _ _ _ (by rwa [List.length_replicate])]
  simp [h]

theorem getD_base_add (m : ℕ) :
    p.baseSpmdPlacements.getD (p.dpShape.length + m) .replicate =
      p.sourcePlacements.getD m .replicate := by
  rw [baseSpmdPlacements, List.getD_append_right _ _ _ _ (by simp)]
  simp

theorem length_base :
    p.baseSpmdPlacements.length = p.dpShape.length + p.sourceShape.length := by
  rw [baseSpmdPlacements, List.length_append, List.length_replicate, p.length_sourcePlacements]

theorem shardMeshDim_lt_base : p.shardMeshDim < p.baseSpmdPlacements.length := by
  rw [length_base]
  exact Nat.lt_add_right _ p.shardMeshDim_lt

variable (p) in
/-- The factor of the shard dimension. -/
def fsdpFactor (d : ℕ) : ℕ :=
  (((List.range p.sourcePlacements.length).filter fun m =>
    (p.sourcePlacements.getD m .replicate).dim? = some (d : ℤ)).map
      fun m => p.sourceShape.getD m 1).prod

theorem getD_spmdMesh_add (m : ℕ) :
    p.spmdMesh.getD (p.dpShape.length + m) 1 = p.sourceShape.getD m 1 := by
  rw [spmdMesh, List.getD_append_right _ _ _ _ (Nat.le_add_right _ _), Nat.add_sub_cancel_left]

/-- The placements on the concatenated mesh: the shard dimension stands before those of the
source. -/
theorem applyDataParallelPlacements_base (d : ℕ) :
    p.applyDataParallelPlacements p.baseSpmdPlacements d = p.baseSpmdPlacements.set p.shardMeshDim
      (if 1 < p.fsdpFactor d then .stridedShard d (p.fsdpFactor d) false else .shard d false) := by
  have hreplicate : p.replicatePlacements p.baseSpmdPlacements = p.baseSpmdPlacements := by
    unfold replicatePlacements
    cases hdim : p.replicateMeshDim with
    | none => rfl
    | some dim =>
      have hlt : dim < p.dpShape.length := p.replicateMeshDim_lt dim hdim
      have hlen : dim < p.baseSpmdPlacements.length := by
        rw [length_base]
        omega
      have hget := getD_base_of_lt hlt
      rw [List.getD_eq_getElem _ _ hlen] at hget
      dsimp only
      split_ifs
      · rfl
      · rw [← hget, List.set_getElem_self]
  have hne : ∀ m, p.dpShape.length + m ≠ p.shardMeshDim := by
    intro m
    have := p.shardMeshDim_lt
    omega
  have hfactor : (((List.range p.baseSpmdPlacements.length).filter fun meshIdx =>
      meshIdx ≠ p.shardMeshDim ∧
        (p.baseSpmdPlacements.getD meshIdx .replicate).dim? = some (d : ℤ)).map
          fun meshIdx => p.spmdMesh.getD meshIdx 1).prod = p.fsdpFactor d := by
    rw [length_base, List.range_add, List.filter_append, List.filter_eq_nil_iff.2, List.nil_append,
      List.filter_map, List.map_map, fsdpFactor, p.length_sourcePlacements]
    · simp only [Function.comp_def, getD_base_add, getD_spmdMesh_add, hne, ne_eq,
        not_false_eq_true, true_and]
    · intro m hm
      rw [getD_base_of_lt (List.mem_range.1 hm)]
      simp [Placement.dim?]
  unfold applyDataParallelPlacements
  dsimp only
  rw [hreplicate, hfactor]

/-- The placements of a parameter that is sharded. -/
theorem initShardPlacements_spec {localShape : List ℕ} {placements : List Placement}
    (h : p.initShardPlacements localShape d = .ok placements) :
    ∃ Y, placements = p.baseSpmdPlacements.set p.shardMeshDim Y ∧ Y.dim? = some (d : ℤ) ∧
      Y.splitFactor = (if 1 < p.fsdpFactor d then p.fsdpFactor d else 1) ∧
      Y.unevenShard = decide (localShape.getD d 0 % p.shardWorldSize ≠ 0) := by
  have hlen := p.shardMeshDim_lt_base
  unfold initShardPlacements at h
  dsimp only at h
  generalize localShape.getD d 0 = size at h ⊢
  split at h
  · cases h
  · rw [applyDataParallelPlacements_base] at h
    obtain rfl := Except.ok.inj h
    by_cases heven : size % p.shardWorldSize ≠ 0
    · rw [if_pos heven, List.getD_eq_getElem _ _ (by rwa [List.length_set]), List.getElem_set_self,
        List.set_set]
      refine ⟨_, rfl, ?_⟩
      split_ifs <;> simp [markUneven, Placement.dim?, Placement.splitFactor, Placement.unevenShard,
        heven]
    · rw [if_neg heven]
      refine ⟨_, rfl, ?_⟩
      split_ifs <;> simp [Placement.dim?, Placement.splitFactor, Placement.unevenShard, heven]

variable (p) in
/-- The placements with some placement of the shard dimension. -/
def sharded (Y : Placement) : List Placement := p.baseSpmdPlacements.set p.shardMeshDim Y

theorem getD_sharded_add (m : ℕ) :
    (p.sharded Y).getD (p.dpShape.length + m) .replicate =
      p.sourcePlacements.getD m .replicate := by
  have hne : p.shardMeshDim ≠ p.dpShape.length + m := by
    have := p.shardMeshDim_lt
    omega
  rw [← getD_base_add, sharded, List.getD_eq_getElem?_getD, List.getElem?_set_ne hne,
    List.getD_eq_getElem?_getD]

theorem getD_sharded_of_lt (h : m < p.dpShape.length) :
    (p.sharded Y).getD m .replicate = if m = p.shardMeshDim then Y else .replicate := by
  have hlen := p.shardMeshDim_lt_base
  rw [sharded, List.getD_eq_getElem?_getD]
  split_ifs with hm
  · rw [hm, List.getElem?_set_self hlen]
    rfl
  · rw [List.getElem?_set_ne (Ne.symm hm), ← List.getD_eq_getElem?_getD, getD_base_of_lt h]

theorem length_sharded : (p.sharded Y).length = p.dpShape.length + p.sourceShape.length := by
  rw [sharded, List.length_set, length_base]

/-- The mesh dimensions of a tensor dimension. -/
theorem shardAxes_sharded (hY : Y.dim? = some (d : ℤ)) (j : ℕ) :
    shardAxes ndim (p.sharded Y) j = (if j = d then [p.shardMeshDim] else []) ++
      (shardAxes ndim p.sourcePlacements j).map (p.dpShape.length + ·) := by
  rw [shardAxes, length_sharded, List.range_add, List.filter_append, List.filter_map]
  have hsource : ∀ m, normalDim ndim ((p.sharded Y).getD (p.dpShape.length + m) .replicate) =
      normalDim ndim (p.sourcePlacements.getD m .replicate) := fun m => by rw [getD_sharded_add]
  have hnormal : normalDim ndim Y = some d := by
    have hpos : ¬((d : ℤ) < 0) := by omega
    simp [normalDim, hY, hpos]
  congr 1
  · have hfilter : ((List.range p.dpShape.length).filter fun m =>
        normalDim ndim ((p.sharded Y).getD m .replicate) = some j) =
          (List.range p.dpShape.length).filter fun m => decide (j = d) && decide (m = p.shardMeshDim) := by
      refine List.filter_congr fun m hm => ?_
      rw [getD_sharded_of_lt (List.mem_range.1 hm), Bool.eq_iff_iff]
      by_cases hmf : m = p.shardMeshDim
      · simp [hmf, hnormal, eq_comm]
      · simp [hmf, normalDim, Placement.dim?]
    rw [hfilter]
    by_cases hj : j = d
    · simp only [hj, decide_true, Bool.true_and, if_true]
      rw [List.filter_eq, List.count_eq_one_of_mem List.nodup_range
        (List.mem_range.2 p.shardMeshDim_lt)]
      rfl
    · simp [hj]
  · rw [shardAxes, p.length_sourcePlacements]
    congr 1
    refine List.filter_congr fun m _ => ?_
    simp only [Function.comp_apply, hsource]

theorem placementFactor_sharded_add (m : ℕ) : placementFactor (p.sharded Y) (p.dpShape.length + m) =
    placementFactor p.sourcePlacements m := by
  rw [placementFactor, placementFactor, getD_sharded_add]

theorem placementFactor_sharded_self :
    placementFactor (p.sharded Y) p.shardMeshDim = Y.splitFactor := by
  rw [placementFactor, getD_sharded_of_lt p.shardMeshDim_lt, if_pos rfl]

theorem mem_unevenShardMeshDims {placements : List Placement} :
    m ∈ unevenShardMeshDims placements ↔ (placements.getD m .replicate).unevenShard := by
  rw [unevenShardMeshDims, List.mem_filter, List.mem_range, and_iff_right_iff_imp]
  intro h
  by_contra hlt
  rw [List.getD_eq_default _ _ (not_lt.1 hlt)] at h
  cases h

end Placements

/-! ### The cuts -/

section Cuts

variable {coord coord' uneven uneven' axes : List ℕ} {slice : ℕ × ℕ}

/-- The cuts along the dimensions of the source are the ones that the source makes. -/
theorem foldl_cutSlice_add
    (hcoord : ∀ m, coord.getD (p.dpShape.length + m) 0 = coord'.getD m 0)
    (huneven : ∀ m, p.dpShape.length + m ∈ uneven ↔ m ∈ uneven') :
    (axes.map (p.dpShape.length + ·)).foldl (cutSlice p.spmdMesh uneven coord) slice =
      axes.foldl (cutSlice p.sourceShape uneven' coord') slice := by
  rw [List.foldl_map]
  congr 1
  funext slice m
  unfold cutSlice chunkRange
  simp only [hcoord, huneven, getD_spmdMesh_add]

theorem foldl_cutSlice_of_one {mesh : List ℕ} (hc : IsCoordinate mesh coord)
    (haxes : ∀ m ∈ axes, m < mesh.length ∧ mesh.getD m 1 = 1) (hs : slice.1 ≤ slice.2) :
    axes.foldl (cutSlice mesh uneven coord) slice = slice := by
  induction axes with
  | nil => rfl
  | cons m axes ih =>
    rw [List.forall_mem_cons] at haxes
    rw [List.foldl_cons, cutSlice_of_one hc haxes.1.1 haxes.1.2 hs]
    exact ih haxes.2

/-- An axis whose factor is at least that of all others cuts last, but for axes of one device. -/
theorem foldl_effective {mesh : List ℕ} {factor : ℕ → ℕ} {f : ℕ} (hc : IsCoordinate mesh coord)
    (haxes : ∀ m ∈ f :: axes, m < mesh.length) (hs : slice.1 ≤ slice.2)
    (hone : ∀ m ∈ axes, factor f ≤ factor m → mesh.getD m 1 = 1) :
    (effectiveShardAxes factor (f :: axes)).foldl (cutSlice mesh uneven coord) slice =
      cutSlice mesh uneven coord ((effectiveShardAxes factor axes).foldl
        (cutSlice mesh uneven coord) slice) f := by
  have hsorted : (effectiveShardAxes factor axes).Pairwise fun a b => factor a ≤ factor b := by
    have h := List.pairwise_insertionSort (fun a b => factor a ≤ factor b) axes
    exact h
  have hmem : ∀ {m}, m ∈ effectiveShardAxes factor axes → m ∈ axes := fun hm =>
    (List.perm_insertionSort _ _).mem_iff.1 hm
  rw [List.forall_mem_cons] at haxes
  have horder : effectiveShardAxes factor (f :: axes) =
      (effectiveShardAxes factor axes).orderedInsert (fun a b => factor a ≤ factor b) f := rfl
  rw [horder]
  generalize effectiveShardAxes factor axes = order at hsorted hmem
  induction order generalizing slice with
  | nil => rfl
  | cons m order ih =>
    rw [List.pairwise_cons] at hsorted
    by_cases hle : factor f ≤ factor m
    · -- the rest has one device each
      have hrest : ∀ a ∈ m :: order, a < mesh.length ∧ mesh.getD a 1 = 1 := by
        intro a ha
        refine ⟨haxes.2 a (hmem ha), hone a (hmem ha) ?_⟩
        rcases List.mem_cons.1 ha with rfl | ha'
        · exact hle
        · exact hle.trans (hsorted.1 a ha')
      rw [List.orderedInsert_cons, if_pos hle, List.foldl_cons, foldl_cutSlice_of_one hc hrest hs,
        foldl_cutSlice_of_one hc hrest (cutSlice_bounds uneven slice hc haxes.1 hs).2.1]
    · rw [List.orderedInsert_cons, if_neg hle, List.foldl_cons, List.foldl_cons]
      have hm := haxes.2 m (hmem List.mem_cons_self)
      exact ih (cutSlice_bounds uneven slice hc hm hs).2.1 hsorted.2
        fun ha => hmem (List.mem_cons_of_mem _ ha)

/-- The cut of the shard dimension is the chunk of `torch.chunk`. -/
theorem cutSlice_shardMeshDim {chunk : ℕ → ℕ → List (ℕ × ℕ)} (hchunk : IsTorchChunk chunk)
    (hrank : coord.getD p.shardMeshDim 0 < p.shardWorldSize)
    (huneven : p.shardMeshDim ∈ uneven ↔ (slice.2 - slice.1) % p.shardWorldSize ≠ 0) :
    cutSlice p.spmdMesh uneven coord slice p.shardMeshDim =
      (slice.1 + ((chunk (slice.2 - slice.1) p.shardWorldSize).getD
        (coord.getD p.shardMeshDim 0) (slice.2 - slice.1, slice.2 - slice.1)).1,
       slice.1 + ((chunk (slice.2 - slice.1) p.shardWorldSize).getD
        (coord.getD p.shardMeshDim 0) (slice.2 - slice.1, slice.2 - slice.1)).2) := by
  have hmesh : p.spmdMesh.getD p.shardMeshDim 1 = p.shardWorldSize := by
    rw [spmdMesh, List.getD_append _ _ _ _ p.shardMeshDim_lt]
    rfl
  unfold cutSlice chunkRange
  rw [hmesh]
  generalize coord.getD p.shardMeshDim 0 = k at hrank ⊢
  generalize slice.2 - slice.1 = size at huneven ⊢
  generalize p.shardWorldSize = n at hrank huneven ⊢
  have hn : 0 < n := Nat.zero_lt_of_lt hrank
  -- both ways to cut are the ceil chunks
  have hceil : (if p.shardMeshDim ∈ uneven then inferCeilChunkRange size n
      else inferBalancedChunkRange size n) k =
        (min (k * ((size + n - 1) / n)) size, min ((k + 1) * ((size + n - 1) / n)) size) := by
    split_ifs with hmem
    · simp only [inferCeilChunkRange, Nat.succ_mul]
      generalize (size + n - 1) / n = q
      generalize k * q = a
      refine Prod.ext rfl ?_
      simp only
      omega
    · have hmod : size % n = 0 := by
        by_contra hne
        exact hmem (huneven.2 hne)
      obtain ⟨q, rfl⟩ := Nat.dvd_of_mod_eq_zero hmod
      have hle : k * q ≤ n * q := Nat.mul_le_mul_right _ hrank.le
      have hle' : k * q + q ≤ n * q := Nat.succ_mul k q ▸ Nat.mul_le_mul_right q hrank
      simp only [inferBalancedChunkRange, hmod, Nat.mul_div_cancel_left q hn, ceil_div_mul q hn,
        Nat.min_eq_left hle, Nat.min_zero, Nat.add_zero, Nat.not_lt_zero, if_false, Nat.succ_mul,
        Nat.min_eq_left hle']
  rw [hceil]
  have hbounds : k * ((size + n - 1) / n) ≤ (k + 1) * ((size + n - 1) / n) :=
    Nat.mul_le_mul_right _ (Nat.le_succ k)
  rcases lt_or_ge k (chunk size n).length with hk | hk
  · obtain ⟨hrange, hle⟩ := hchunk.range size n k _ hn (List.getElem?_eq_getElem hk)
    rw [List.getD_eq_getElem _ _ hk, hrange]
    rw [hrange] at hle
    simp only at hle ⊢
    rw [Nat.min_eq_left hle]
    refine Prod.ext rfl ?_
    simp only
    omega
  · have hle := hchunk.fewer size n k hn hrank hk
    rw [List.getD_eq_default _ _ hk, Nat.min_eq_right hle, Nat.min_eq_right (hle.trans hbounds)]
    refine Prod.ext rfl ?_
    simp only
    omega

end Cuts

/-! ### The slices -/

section Slices

variable {chunk : ℕ → ℕ → List (ℕ × ℕ)} {sourceMap : List TensorMapping} {globalShape : List ℕ}
  {rank shardDim : ℕ} {spec : ShardingSpec} {placementDim : Option ℤ}

variable (p) in
/-- Every source placement that shards a tensor dimension over several devices names it by its
non-negative number, as the factor of the shard dimension counts them. -/
def DimsCounted (ndim d : ℕ) : Prop :=
  ∀ m ∈ shardAxes ndim p.sourcePlacements d,
    (p.sourcePlacements.getD m .replicate).dim? = some (d : ℤ) ∨ p.sourceShape.getD m 1 = 1

theorem sourceShape_pos (m : ℕ) : 0 < p.sourceShape.getD m 1 := by
  rcases lt_or_ge m p.sourceShape.length with hm | hm
  · rw [List.getD_eq_getElem _ _ hm]
    exact p.shape_pos _ (List.mem_append_right _ (List.getElem_mem hm))
  · rw [List.getD_eq_default _ _ hm]
    exact Nat.one_pos

theorem lt_of_mem_shardAxes (h : m ∈ shardAxes ndim p.sourcePlacements j) :
    m < p.sourceShape.length := by
  rw [← p.length_sourcePlacements]
  exact List.mem_range.1 (List.mem_of_mem_filter h)

/-- The factor of the shard dimension counts all mesh dimensions that shard the tensor dimension. -/
theorem fsdpFactor_eq (h : p.DimsCounted ndim d) : p.fsdpFactor d =
    ((shardAxes ndim p.sourcePlacements d).map fun m => p.sourceShape.getD m 1).prod := by
  apply prod_filter_eq
  · intro m _ hdim
    have hpos : ¬((d : ℤ) < 0) := by omega
    apply decide_eq_true
    rw [normalDim, of_decide_eq_true hdim]
    simp [hpos]
  · intro m hm hnormal hdim
    have hmem : m ∈ shardAxes ndim p.sourcePlacements d := List.mem_filter.2 ⟨hm, hnormal⟩
    exact (h m hmem).resolve_left fun heq => hdim (decide_eq_true heq)

/-- A mesh dimension of the source with a factor as large as that of the shard dimension is one
device. -/
theorem getD_eq_one (h : p.DimsCounted ndim d)
    (hvalid : validateSplitFactors p.sourceShape p.sourcePlacements
      (shardAxes ndim p.sourcePlacements d) = .ok ())
    (hm : m ∈ shardAxes ndim p.sourcePlacements d)
    (hle : (if 1 < p.fsdpFactor d then p.fsdpFactor d else 1) ≤
      placementFactor p.sourcePlacements m) :
    p.sourceShape.getD m 1 = 1 := by
  have hmul := factor_mul_le (fun a _ => sourceShape_pos a) hvalid hm
  rw [← fsdpFactor_eq h] at hmul
  have hpos : 0 < p.fsdpFactor d := by
    rw [fsdpFactor_eq h]
    apply List.prod_pos
    intro n hn
    obtain ⟨a, -, rfl⟩ := List.mem_map.1 hn
    exact sourceShape_pos a
  have hfactor : p.fsdpFactor d ≤ placementFactor p.sourcePlacements m := by
    split_ifs at hle <;> omega
  have hsize : p.fsdpFactor d * p.sourceShape.getD m 1 ≤ p.fsdpFactor d * 1 := by
    rw [Nat.mul_one]
    exact (Nat.mul_le_mul_right _ hfactor).trans hmul
  exact le_antisymm (Nat.le_of_mul_le_mul_left hsize hpos) (sourceShape_pos m)

/-- The coordinate of a rank on the dimensions of the source. -/
theorem getD_coordinate_add (m : ℕ) :
    (calculateMeshCoordinateForRank p.spmdMesh rank).getD (p.dpShape.length + m) 0 =
      (calculateMeshCoordinateForRank p.sourceShape (rank % p.sourceShape.prod)).getD m 0 := by
  rw [calculateMeshCoordinateForRank_eq, calculateMeshCoordinateForRank_eq, MixedRadix.digits_mod,
    spmdMesh, MixedRadix.digits_append,
    List.getD_append_right _ _ _ _ (by rw [MixedRadix.length_digits]; omega),
    MixedRadix.length_digits, Nat.add_sub_cancel_left]

/-- The order in which the dimensions of the source cut. -/
theorem effectiveShardAxes_map (axes : List ℕ) :
    effectiveShardAxes (placementFactor (p.sharded Y)) (axes.map (p.dpShape.length + ·)) =
      (effectiveShardAxes (placementFactor p.sourcePlacements) axes).map
        (p.dpShape.length + ·) := by
  symm
  apply List.map_insertionSort
  intro a _ b _
  rw [placementFactor_sharded_add, placementFactor_sharded_add]

variable (p) in
/-- The cut of one tensor dimension by the source. -/
def sourceCut (globalShape : List ℕ) (rank j : ℕ) : ℕ × ℕ :=
  (effectiveShardAxes (placementFactor p.sourcePlacements)
    (shardAxes globalShape.length p.sourcePlacements j)).foldl
      (cutSlice p.sourceShape (unevenShardMeshDims p.sourcePlacements)
        (calculateMeshCoordinateForRank p.sourceShape (rank % p.sourceShape.prod)))
      (0, globalShape.getD j 0)

theorem sourceSlice_eq (hndim : globalShape.length ≠ 0)
    (hsource : placementToTensorMap p.sourceShape globalShape.length p.sourcePlacements =
      .ok sourceMap) :
    p.sourceSlice sourceMap globalShape rank =
      (List.range globalShape.length).map (p.sourceCut globalShape rank) := by
  rw [sourceSlice, inferSliceAreaByRank_eq, (placementToTensorMap_spec hndim hsource).2]
  apply sliceArea_range
  intro j _ m hm
  exact lt_of_mem_shardAxes ((List.perm_insertionSort _ _).mem_iff.1 hm)

theorem isCoordinate_spmdMesh :
    IsCoordinate p.spmdMesh (calculateMeshCoordinateForRank p.spmdMesh rank) :=
  isCoordinate_calculate p.shape_pos

theorem shardMeshDim_lt_spmdMesh : p.shardMeshDim < p.spmdMesh.length := by
  rw [spmdMesh, List.length_append]
  exact Nat.lt_add_right _ p.shardMeshDim_lt

/-- The slice of the sharded parameter is the chunk of the slice of the source. -/
theorem slice_sharded (hchunk : IsTorchChunk chunk) (hndim : globalShape.length ≠ 0)
    (hcounted : p.DimsCounted globalShape.length d)
    (hsource : placementToTensorMap p.sourceShape globalShape.length p.sourcePlacements =
      .ok sourceMap) {tensorMap : List TensorMapping}
    (hY : Y.dim? = some (d : ℤ))
    (hfactor : Y.splitFactor = if 1 < p.fsdpFactor d then p.fsdpFactor d else 1)
    (huneven : Y.unevenShard = true ↔ ((p.sourceCut globalShape rank d).2 -
      (p.sourceCut globalShape rank d).1) % p.shardWorldSize ≠ 0)
    (hmap : placementToTensorMap p.spmdMesh globalShape.length (p.sharded Y) = .ok tensorMap) :
    inferSliceAreaByRank p.spmdMesh tensorMap rank globalShape
        (unevenShardMeshDims (p.sharded Y)) =
      p.localShard chunk (p.sourceSlice sourceMap globalShape rank) d rank := by
  have hlt : ∀ j, ∀ m ∈ shardAxes globalShape.length (p.sharded Y) j, m < p.spmdMesh.length := by
    intro j m hm
    have hrange := List.mem_range.1 (List.mem_of_mem_filter hm)
    rwa [length_sharded, ← List.length_append] at hrange
  have hsourceUneven : ∀ m, p.dpShape.length + m ∈ unevenShardMeshDims (p.sharded Y) ↔
      m ∈ unevenShardMeshDims p.sourcePlacements := by
    intro m
    rw [mem_unevenShardMeshDims, mem_unevenShardMeshDims, getD_sharded_add]
  have hsourceCut : ∀ j, (effectiveShardAxes (placementFactor (p.sharded Y))
      ((shardAxes globalShape.length p.sourcePlacements j).map (p.dpShape.length + ·))).foldl
        (cutSlice p.spmdMesh (unevenShardMeshDims (p.sharded Y))
          (calculateMeshCoordinateForRank p.spmdMesh rank)) (0, globalShape.getD j 0) =
      p.sourceCut globalShape rank j := by
    intro j
    rw [effectiveShardAxes_map, foldl_cutSlice_add getD_coordinate_add hsourceUneven]
    rfl
  have horder : ∀ j < globalShape.length, ∀ m ∈ effectiveShardAxes (placementFactor (p.sharded Y))
      (shardAxes globalShape.length (p.sharded Y) j), m < p.spmdMesh.length :=
    fun j _ m hm => hlt j m ((List.perm_insertionSort _ _).mem_iff.1 hm)
  rw [inferSliceAreaByRank_eq, (placementToTensorMap_spec hndim hmap).2, sliceArea_range horder,
    sourceSlice_eq hndim hsource, localShard]
  apply List.ext_getElem
  · simp
  intro j hj hj'
  rw [List.length_map, List.length_range] at hj
  rw [List.getElem_map, List.getElem_range, List.getElem_set]
  have haxes : shardAxes globalShape.length (p.sharded Y) j =
      (if j = d then [p.shardMeshDim] else []) ++
        (shardAxes globalShape.length p.sourcePlacements j).map (p.dpShape.length + ·) :=
    shardAxes_sharded hY j
  split_ifs with hjd
  · subst hjd
    have hget : ((List.range globalShape.length).map (p.sourceCut globalShape rank)).getD d (0, 0) =
        p.sourceCut globalShape rank d := by
      rw [List.getD_eq_getElem _ _ (by simpa using hj), List.getElem_map, List.getElem_range]
    rw [hget, haxes, if_pos rfl, List.singleton_append, foldl_effective isCoordinate_spmdMesh
      (fun m hm => hlt d m (by rw [haxes, if_pos rfl]; exact hm)) (Nat.zero_le _), hsourceCut,
      cutSlice_shardMeshDim hchunk]
    · rfl
    · have hc := @isCoordinate_spmdMesh p rank p.shardMeshDim shardMeshDim_lt_spmdMesh
      rwa [spmdMesh, List.getD_append _ _ _ _ p.shardMeshDim_lt] at hc
    · rw [mem_unevenShardMeshDims, getD_sharded_of_lt p.shardMeshDim_lt, if_pos rfl]
      exact huneven
    · intro m hm hle
      obtain ⟨a, ha, rfl⟩ := List.mem_map.1 hm
      rw [placementFactor_sharded_self, placementFactor_sharded_add, hfactor] at hle
      rw [getD_spmdMesh_add]
      exact getD_eq_one hcounted ((placementToTensorMap_spec hndim hsource).1 d hj) ha hle
  · rw [haxes, if_neg (Ne.symm hjd), List.nil_append, hsourceCut, List.getElem_map,
      List.getElem_range]

end Slices

/-! ### The global shape of a plain tensor -/

section GlobalShape

variable {mesh coord uneven axes globalShape : List ℕ} {slice : ℕ × ℕ}
  {sourceMap : List TensorMapping} {rank : ℕ}

/-- Even cuts leave a share of the slice. -/
theorem cutSlice_of_dvd (hc : IsCoordinate mesh coord) (hm : m < mesh.length)
    (hdvd : mesh.getD m 1 ∣ slice.2 - slice.1) :
    ((cutSlice mesh uneven coord slice m).2 - (cutSlice mesh uneven coord slice m).1) *
      mesh.getD m 1 = slice.2 - slice.1 := by
  have hlt := hc m hm
  unfold cutSlice chunkRange
  generalize mesh.getD m 1 = n at hlt hdvd ⊢
  generalize coord.getD m 0 = k at hlt ⊢
  obtain ⟨q, hq⟩ := hdvd
  rw [hq]
  have hn : 0 < n := Nat.zero_lt_of_lt hlt
  have hle : k * q ≤ n * q := Nat.mul_le_mul_right _ hlt.le
  have hle' : k * q + q ≤ n * q := Nat.succ_mul k q ▸ Nat.mul_le_mul_right q hlt
  have hpiece : (if m ∈ uneven then inferCeilChunkRange (n * q) n
      else inferBalancedChunkRange (n * q) n) k = (k * q, k * q + q) := by
    split_ifs
    · simp only [inferCeilChunkRange, ceil_div_mul q hn, Nat.min_eq_left hle, Nat.min_eq_left hle']
    · simp only [inferBalancedChunkRange, Nat.mul_div_cancel_left q hn, Nat.mul_mod_right,
        Nat.min_zero, Nat.add_zero, Nat.not_lt_zero, if_false]
  rw [hpiece, Nat.mul_comm n q]
  congr 1
  simp only
  omega

theorem foldl_cutSlice_of_dvd (hc : IsCoordinate mesh coord) (haxes : ∀ m ∈ axes, m < mesh.length)
    (hdvd : (axes.map fun m => mesh.getD m 1).prod ∣ slice.2 - slice.1) :
    ((axes.foldl (cutSlice mesh uneven coord) slice).2 -
      (axes.foldl (cutSlice mesh uneven coord) slice).1) *
        (axes.map fun m => mesh.getD m 1).prod = slice.2 - slice.1 := by
  induction axes generalizing slice with
  | nil => exact Nat.mul_one _
  | cons m axes ih =>
    rw [List.forall_mem_cons] at haxes
    rw [List.map_cons, List.prod_cons] at hdvd ⊢
    have hcut := @cutSlice_of_dvd m mesh coord uneven slice hc haxes.1 (Dvd.dvd.trans ⟨_, rfl⟩ hdvd)
    have hpos : 0 < mesh.getD m 1 := Nat.zero_lt_of_lt (hc m haxes.1)
    have hrest : (axes.map fun m => mesh.getD m 1).prod ∣
        (cutSlice mesh uneven coord slice m).2 - (cutSlice mesh uneven coord slice m).1 := by
      rw [← hcut, Nat.mul_comm] at hdvd
      exact Nat.dvd_of_mul_dvd_mul_right hpos hdvd
    have hfold := ih haxes.2 hrest
    rw [List.foldl_cons, Nat.mul_left_comm, hfold, Nat.mul_comm, hcut]

theorem mem_mappedDims_convertDims (haxes : ∀ a ∈ axes, a < mesh.length) (hm : m < mesh.length) :
    ((mesh.length : ℤ) - 1 - m) ∈ (convertDims mesh axes).mappedDims ↔ m ∈ axes := by
  match axes, haxes with
  | [], _ =>
    simp only [convertDims, TensorMapping.mappedDims, List.mem_singleton, List.not_mem_nil,
      iff_false]
    omega
  | [a], haxes =>
    simp only [convertDims, TensorMapping.mappedDims, List.mem_singleton]
    omega
  | a :: b :: axes, haxes =>
    simp only [convertDims, TensorMapping.mappedDims, List.mem_map]
    constructor
    · rintro ⟨c, hc, heq⟩
      obtain rfl : c = m := by omega
      exact hc
    · intro hmem
      exact ⟨m, hmem, rfl⟩

variable (p) in
/-- A plain tensor with a source layout has shards of one size in every dimension. -/
def EvenlySharded (globalShape : List ℕ) : Prop :=
  ∀ j < globalShape.length, ((shardAxes globalShape.length p.sourcePlacements j).map
    fun m => p.sourceShape.getD m 1).prod ∣ globalShape.getD j 0

/-- The factors of `get_global_shape`. -/
theorem foldl_factors (hndim : ndim ≠ 0)
    (hsource : placementToTensorMap p.sourceShape ndim p.sourcePlacements = .ok sourceMap) {k : ℕ}
    (hk : k ≤ p.sourceShape.length) :
    (List.range k).foldl (fun factors i => multiplyFactor p.sourceShape.length sourceMap factors
      (p.sourceShape.getD i 1, i)) (List.replicate ndim 1) =
    (List.range ndim).map fun j => (((List.range k).filter fun m =>
      normalDim ndim (p.sourcePlacements.getD m .replicate) = some j).map
        fun m => p.sourceShape.getD m 1).prod := by
  induction k with
  | zero => simp
  | succ k ih =>
    rw [List.range_succ, List.foldl_append, ih (by omega), List.foldl_cons, List.foldl_nil,
      multiplyFactor]
    obtain ⟨-, rfl⟩ := placementToTensorMap_spec hndim hsource
    have hmem : ∀ j, (((p.sourceShape.length : ℤ) - 1 - k) ∈ (convertDims p.sourceShape
        (effectiveShardAxes (placementFactor p.sourcePlacements)
          (shardAxes ndim p.sourcePlacements j))).mappedDims ↔
        normalDim ndim (p.sourcePlacements.getD k .replicate) = some j) := by
      intro j
      have hperm : (effectiveShardAxes (placementFactor p.sourcePlacements)
        (shardAxes ndim p.sourcePlacements j)).Perm (shardAxes ndim p.sourcePlacements j) :=
        List.perm_insertionSort _ _
      rw [mem_mappedDims_convertDims
        (fun a ha => lt_of_mem_shardAxes (hperm.mem_iff.1 ha)) hk, hperm.mem_iff, shardAxes,
        List.mem_filter, List.mem_range, p.length_sourcePlacements, decide_eq_true_eq,
        and_iff_right_iff_imp]
      exact fun _ => hk
    rw [List.findIdx?_map]
    have hpred : (fun mapping : TensorMapping =>
        decide (((p.sourceShape.length : ℤ) - 1 - k) ∈ mapping.mappedDims)) ∘
          (fun j => convertDims p.sourceShape (effectiveShardAxes
            (placementFactor p.sourcePlacements) (shardAxes ndim p.sourcePlacements j))) =
        fun j => decide (normalDim ndim (p.sourcePlacements.getD k .replicate) = some j) := by
      funext j
      exact decide_eq_decide.2 (hmem j)
    rw [hpred]
    simp only [List.filter_append, List.map_append, List.prod_append, List.filter_cons,
      List.filter_nil]
    cases hfind : (List.range ndim).findIdx? fun j =>
        decide (normalDim ndim (p.sourcePlacements.getD k .replicate) = some j) with
    | none =>
      rw [List.findIdx?_eq_none_iff] at hfind
      refine List.map_congr_left fun j hj => ?_
      have hno := hfind j hj
      rw [hno]
      simp
    | some j₀ =>
      obtain ⟨hlt, hyes, -⟩ := List.findIdx?_eq_some_iff_getElem.1 hfind
      rw [List.length_range] at hlt
      rw [List.getElem_range, decide_eq_true_eq] at hyes
      apply List.ext_getElem
      · simp
      intro j hj hj'
      rw [List.length_map, List.length_range] at hj'
      simp only [List.getElem_set, List.getElem_map, List.getElem_range, hyes, Option.some.injEq]
      split_ifs with hjj hd hd
      · subst hjj
        rw [List.getD_eq_getElem _ _ (by simpa using hlt), List.getElem_map, List.getElem_range]
        simp
      · exact absurd (decide_eq_true hjj) hd
      · exact absurd (of_decide_eq_true hd) hjj
      · simp

/-- The global shape of an evenly sharded tensor comes back from the local one. -/
theorem getGlobalShape_eq (hndim : globalShape.length ≠ 0)
    (hsource : placementToTensorMap p.sourceShape globalShape.length p.sourcePlacements =
      .ok sourceMap) (heven : p.EvenlySharded globalShape) :
    getGlobalShape p.sourceShape (Box.lengths (p.sourceSlice sourceMap globalShape rank))
      sourceMap = globalShape := by
  have hlength : (Box.lengths (p.sourceSlice sourceMap globalShape rank)).length =
      globalShape.length := by
    rw [sourceSlice_eq hndim hsource, Box.lengths]
    simp
  rw [getGlobalShape, hlength, zipIdx_eq_map_range _ 1, List.foldl_map, foldl_factors hndim hsource le_rfl]
  apply List.ext_getElem
  · simp [hlength]
  intro j hj hj'
  have hlt : ∀ m ∈ effectiveShardAxes (placementFactor p.sourcePlacements)
      (shardAxes globalShape.length p.sourcePlacements j), m < p.sourceShape.length :=
    fun m hm => lt_of_mem_shardAxes ((List.perm_insertionSort _ _).mem_iff.1 hm)
  have hprod : ((effectiveShardAxes (placementFactor p.sourcePlacements)
      (shardAxes globalShape.length p.sourcePlacements j)).map
        fun m => p.sourceShape.getD m 1).prod =
      ((shardAxes globalShape.length p.sourcePlacements j).map
        fun m => p.sourceShape.getD m 1).prod :=
    ((List.perm_insertionSort _ _).map _).prod_eq
  have hcoord : IsCoordinate p.sourceShape
      (calculateMeshCoordinateForRank p.sourceShape (rank % p.sourceShape.prod)) :=
    isCoordinate_calculate fun n hn => p.shape_pos n (List.mem_append_right _ hn)
  have hcut := @foldl_cutSlice_of_dvd _ _ (unevenShardMeshDims p.sourcePlacements) _
    (0, globalShape.getD j 0) hcoord hlt (by rw [hprod]; exact heven j hj')
  rw [hprod] at hcut
  simp only [List.getElem_zipWith, List.getElem_map, List.getElem_range, Box.lengths,
    sourceSlice_eq hndim hsource]
  rw [← p.length_sourcePlacements]
  refine hcut.trans ?_
  rw [List.getD_eq_getElem _ _ hj']
  rfl

end GlobalShape

/-! ### Every rank -/

section Describes

variable {chunk : ℕ → ℕ → List (ℕ × ℕ)} {placementDim : Option ℤ} {globalShape localShape : List ℕ}
  {sourceMap : List TensorMapping} {rank : ℕ} {placements : List Placement} {spec : ShardingSpec}

theorem buildShardingSpec_spec (hsize : p.logicalGlobalSize globalShape localShape = .ok globalShape)
    (h : p.buildShardingSpec globalShape localShape placements = .ok spec) :
    ∃ tensorMap, placementToTensorMap p.spmdMesh localShape.length placements = .ok tensorMap ∧
      spec = ⟨p.spmdMesh, tensorMap, globalShape, unevenShardMeshDims placements⟩ := by
  unfold buildShardingSpec at h
  rw [hsize] at h
  cases hmap : placementToTensorMap p.spmdMesh localShape.length placements with
  | error e => simp [hmap, raiseLayout, bind, Except.bind] at h
  | ok tensorMap =>
    simp only [hmap, raiseLayout, bind, Except.bind, pure, Except.pure, Except.ok.injEq] at h
    exact ⟨tensorMap, rfl, h.symm⟩

theorem logicalGlobalSize_eq (hndim : globalShape.length ≠ 0)
    (hsource : placementToTensorMap p.sourceShape globalShape.length p.sourcePlacements =
      .ok sourceMap)
    (heven : p.origParamIsDtensor = false → p.EvenlySharded globalShape)
    (hlength : (Box.lengths (p.sourceSlice sourceMap globalShape rank)).length =
      globalShape.length) :
    p.logicalGlobalSize globalShape (Box.lengths (p.sourceSlice sourceMap globalShape rank)) =
      .ok globalShape := by
  unfold logicalGlobalSize
  split_ifs with horig
  · rfl
  · rw [hlength, hsource]
    exact congrArg Except.ok (getGlobalShape_eq hndim hsource (heven (by simpa using horig)))

/-- The layout describes what every rank holds if the factor of the shard dimension counts the
source dimensions and a plain tensor is evenly sharded by its source. -/
theorem describes_of_dimsCounted (hchunk : IsTorchChunk chunk)
    (hcounted : p.DimsCounted globalShape.length
      (resolveHsdpPlacement placementDim globalShape.length).toNat)
    (heven : p.origParamIsDtensor = false → p.EvenlySharded globalShape) :
    p.Describes chunk placementDim globalShape := by
  intro sourceMap hsource rank _ shardDim spec h
  generalize hshardDim : resolveHsdpPlacement placementDim globalShape.length = dim at hcounted
  unfold initShardedParam at h
  dsimp only at h
  rw [hshardDim] at h
  split at h
  · cases h
  next hlocal =>
  split at h
  · cases h
  next hdim =>
  have hndim : globalShape.length ≠ 0 := by
    intro hzero
    apply hlocal
    rw [Box.lengths, List.length_map, sourceSlice, inferSliceAreaByRank_eq, sliceArea,
      List.length_zipWith, hzero, Nat.zero_min]
  have hlength : (Box.lengths (p.sourceSlice sourceMap globalShape rank)).length =
      globalShape.length := by
    rw [sourceSlice_eq hndim hsource, Box.lengths, List.length_map, List.length_map,
      List.length_range]
  have hd : dim.toNat < globalShape.length := by
    rw [hlength] at hdim
    omega
  cases hplacements : p.initShardPlacements
      (Box.lengths (p.sourceSlice sourceMap globalShape rank)) dim.toNat with
  | error e => simp [hplacements, bind, Except.bind] at h
  | ok placements =>
    simp only [hplacements, bind, Except.bind] at h
    cases hspec : p.buildShardingSpec globalShape
        (Box.lengths (p.sourceSlice sourceMap globalShape rank)) placements with
    | error e => simp [hspec] at h
    | ok built =>
      simp only [hspec, pure, Except.pure, Except.ok.injEq, Prod.mk.injEq] at h
      obtain ⟨rfl, rfl⟩ := h
      obtain ⟨Y, rfl, hY, hfactor, huneven⟩ := initShardPlacements_spec hplacements
      obtain ⟨tensorMap, hmap, rfl⟩ := buildShardingSpec_spec
        (logicalGlobalSize_eq hndim hsource heven hlength) hspec
      rw [hlength] at hmap
      refine slice_sharded hchunk hndim hcounted hsource hY hfactor ?_ hmap
      rw [huneven, decide_eq_true_eq, sourceSlice_eq hndim hsource, Box.lengths,
        List.getD_eq_getElem _ _ (by simpa using hd), List.getElem_map, List.getElem_map,
        List.getElem_range]

/-- Chunks of the size rounded up until the end; along an empty dimension as many as asked for. -/
def ceilChunk (size n : ℕ) : List (ℕ × ℕ) :=
  let q := (size + n - 1) / n
  (List.range (if size = 0 then n else (size + q - 1) / q)).map fun k =>
    (k * q, min ((k + 1) * q) size)

theorem isTorchChunk_ceilChunk : IsTorchChunk ceilChunk := by
  constructor
  · intro size n k range hn hrange
    have hempty : size = 0 → (size + n - 1) / n = 0 := fun h => Nat.div_eq_of_lt (by omega)
    unfold ceilChunk at hrange
    dsimp only at hrange
    generalize (size + n - 1) / n = q at hrange hempty ⊢
    rw [List.getElem?_map, Option.map_eq_some_iff] at hrange
    obtain ⟨i, hi, rfl⟩ := hrange
    obtain ⟨hlt, rfl⟩ := List.getElem?_eq_some_iff.1 hi
    rw [List.length_range] at hlt
    rw [List.getElem_range]
    refine ⟨rfl, ?_⟩
    show k * q ≤ size
    split_ifs at hlt with hsize
    · rw [hempty hsize]
      exact Nat.zero_le _
    · have hmul := Nat.div_mul_le_self (size + q - 1) q
      have hle : (k + 1) * q ≤ (size + q - 1) / q * q := Nat.mul_le_mul_right q hlt
      rw [Nat.succ_mul] at hle
      omega
  · intro size n k hn hk hlen
    unfold ceilChunk at hlen
    dsimp only at hlen
    rw [List.length_map, List.length_range] at hlen
    split_ifs at hlen with hsize
    · omega
    · have hq : 0 < (size + n - 1) / n := Nat.div_pos (by omega) hn
      generalize (size + n - 1) / n = q at hq hlen ⊢
      have hdiv := Nat.div_add_mod (size + q - 1) q
      have hmod := Nat.mod_lt (size + q - 1) hq
      have hle : q * ((size + q - 1) / q) ≤ q * k := Nat.mul_le_mul_left q hlen
      rw [Nat.mul_comm k q]
      omega

/-- A bias cut by TP, and then by FSDP. -/
def bias : HSDPParam where
  dpShape := [2]
  shardMeshDim := 0
  replicateMeshDim := none
  sourceShape := [2]
  sourcePlacements := [.shard 0 false]
  origParamIsDtensor := true
  shape_pos := by decide
  shardMeshDim_lt := by decide
  replicateMeshDim_lt := by decide
  length_sourcePlacements := rfl

theorem describes_bias : bias.Describes ceilChunk none [5] :=
  describes_of_dimsCounted isTorchChunk_ceilChunk (by unfold DimsCounted; decide)
    fun h => by cases h

/-- The same bias, with its only dimension named from the end. -/
def negativeBias : HSDPParam := { bias with sourcePlacements := [.shard (-1) false] }

/-- Rank 1 keeps element 2, and its layout says element 1. -/
theorem not_describes_negativeBias :
    IsTorchChunk ceilChunk ∧ ¬negativeBias.Describes ceilChunk none [4] := by
  refine ⟨isTorchChunk_ceilChunk, fun h => ?_⟩
  have hslice := h [.axis 0] rfl 1 (by decide) 0 ⟨[2, 2], [.axes [1, 0]], [4], []⟩ (by decide +kernel)
  revert hslice
  decide +kernel

end Describes

end HSDPParam

end HyperParallel.FullyShard

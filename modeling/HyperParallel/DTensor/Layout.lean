import HyperParallel.Lib.Box
import HyperParallel.Lib.Cut
import HyperParallel.Lib.Dict
import HyperParallel.Lib.MixedRadix
import Mathlib.Algebra.BigOperators.Group.Finset.Piecewise
import Mathlib.Algebra.Order.BigOperators.GroupWithZero.List
import Mathlib.Algebra.Order.Ring.Nat
import Mathlib.Data.Int.Notation
import Mathlib.Data.List.GetD

/-!
# Layouts of distributed tensors

`core/dtensor/layout.py`: the slice of a global tensor that a tensor map gives to each rank of a
mesh.

* `inferBalancedChunkRange`, `inferCeilChunkRange`: the two ways of cutting a range;
* `inferTensorDimensionSlice`, `inferSliceAreaByRank`: the slice of a rank;
* `repeatNum`: the number of ranks that hold each slice.

A tensor map has one entry for each tensor dimension: `-1`, a mesh axis, or a tuple of these.
Axis `a` is the mesh dimension `len(mesh_shape) - a - 1`.
-/

open scoped BigOperators

namespace HyperParallel.DTensor

/-- An entry of a tensor map. -/
inductive TensorMapping
  | axis (a : ℤ)
  | axes (as : List ℤ)
  deriving DecidableEq, Repr

/-- `mapped_dims`: the entry as a tuple. -/
def TensorMapping.mappedDims : TensorMapping → List ℤ
  | .axis a => [a]
  | .axes as => as

/-- `infer_balanced_chunk_range`. -/
def inferBalancedChunkRange (tensorSize shardCount shardRank : ℕ) : ℕ × ℕ :=
  let shardSize := tensorSize / shardCount
  let remainder := tensorSize % shardCount
  let chunkStart := shardRank * shardSize + min shardRank remainder
  (chunkStart, chunkStart + shardSize + if shardRank < remainder then 1 else 0)

/-- `infer_ceil_chunk_range`. -/
def inferCeilChunkRange (tensorSize shardCount shardRank : ℕ) : ℕ × ℕ :=
  let chunkSize := (tensorSize + shardCount - 1) / shardCount
  let chunkStart := min (shardRank * chunkSize) tensorSize
  (chunkStart, min (chunkStart + chunkSize) tensorSize)

/-- `_calculate_mesh_coordinate_for_rank`: the loop takes the remainder by the last mesh
dimension first. -/
def calculateMeshCoordinateForRank (meshShape : List ℕ) (rankId : ℕ) : List ℕ :=
  (meshShape.foldr (fun n acc => (acc.2 % n :: acc.1, acc.2 / n)) ([], rankId)).1

/-- The mesh dimension of an axis of a tensor map. -/
def meshDim (meshShape : List ℕ) (axis : ℤ) : ℕ :=
  (meshShape.length - axis - 1).toNat

/-- `_infer_tensor_dimension_slice`. -/
def inferTensorDimensionSlice (globalSize : ℕ) (tensorMapping : TensorMapping)
    (meshShape meshCoordinate : List ℕ) (unevenShardMeshDims : List ℕ) : ℕ × ℕ :=
  tensorMapping.mappedDims.foldl (fun slice mappedMeshDim =>
    if mappedMeshDim = -1 then slice
    else
      let dim := meshDim meshShape mappedMeshDim
      let inferChunkRange :=
        if dim ∈ unevenShardMeshDims then inferCeilChunkRange else inferBalancedChunkRange
      let chunk := inferChunkRange (slice.2 - slice.1) (meshShape.getD dim 1)
        (meshCoordinate.getD dim 0)
      (slice.1 + chunk.1, slice.1 + chunk.1 + chunk.2 - chunk.1)) (0, globalSize)

/-- `infer_slice_area_by_rank`. -/
def inferSliceAreaByRank (meshShape : List ℕ) (tensorMap : List TensorMapping) (rankId : ℕ)
    (fullShape : List ℕ) (unevenShardMeshDims : List ℕ) : List (ℕ × ℕ) :=
  let meshCoordinate := calculateMeshCoordinateForRank meshShape rankId
  List.zipWith (fun globalSize mapping =>
    inferTensorDimensionSlice globalSize mapping meshShape meshCoordinate unevenShardMeshDims)
    fullShape tensorMap

/-- `Layout.repeat_num`. -/
def repeatNum (meshShape : List ℕ) (tensorMap : List TensorMapping) : ℕ :=
  let used := tensorMap.flatMap TensorMapping.mappedDims
  meshShape.prod /
    (used.map fun item => if item ≥ 0 then meshShape.getD (meshDim meshShape item) 1 else 1).prod

/-- A tensor map over a mesh: its axes are axes of the mesh, each used at most once. -/
structure IsTensorMap (meshShape : List ℕ) (tensorMap : List TensorMapping) : Prop where
  axis_valid : ∀ a ∈ tensorMap.flatMap TensorMapping.mappedDims,
    a = -1 ∨ (0 ≤ a ∧ a < meshShape.length)
  nodup : ((tensorMap.flatMap TensorMapping.mappedDims).filter (· ≠ -1)).Nodup

/-- The cut of a range of the given size along a mesh dimension. -/
def chunkRange (meshShape unevenShardMeshDims : List ℕ) (dim size : ℕ) : ℕ → ℕ × ℕ :=
  if dim ∈ unevenShardMeshDims then inferCeilChunkRange size (meshShape.getD dim 1)
  else inferBalancedChunkRange size (meshShape.getD dim 1)

/-! ### One cut -/

section Cut

variable {size n : ℕ}

/-- Balanced chunks fill the range. -/
def isCut_balanced (hn : 0 < n) : IsCut (inferBalancedChunkRange size n) n size where
  bound k := k * (size / n) + min k (size % n)
  mono := monotone_nat_of_le_succ fun k => by
    rw [Nat.succ_mul]
    generalize size / n = q
    omega
  bound_zero := by simp
  bound_last := by
    have := Nat.div_add_mod size n
    rw [Nat.min_eq_right (Nat.mod_lt size hn).le]
    exact this
  piece k hk := by
    simp only [inferBalancedChunkRange, Nat.succ_mul]
    refine Prod.ext rfl ?_
    simp only
    generalize k * (size / n) = a
    split_ifs <;> omega

/-- Ceil chunks fill the range. -/
def isCut_ceil (hn : 0 < n) : IsCut (inferCeilChunkRange size n) n size where
  bound k := min (k * ((size + n - 1) / n)) size
  mono := monotone_nat_of_le_succ fun k => by
    rw [Nat.succ_mul]
    generalize (size + n - 1) / n = q
    omega
  bound_zero := by simp
  bound_last := by
    have h1 := Nat.div_add_mod (size + n - 1) n
    have h2 := Nat.mod_lt (size + n - 1) hn
    omega
  piece k hk := by
    simp only [inferCeilChunkRange, Nat.succ_mul]
    refine Prod.ext rfl ?_
    simp only
    generalize (size + n - 1) / n = q
    generalize k * q = a
    omega

/-- The chunks along a mesh dimension fill the range. -/
def isCut_chunkRange {mesh uneven : List ℕ} {d : ℕ} (hd : 0 < mesh.getD d 1) :
    IsCut (chunkRange mesh uneven d size) (mesh.getD d 1) size := by
  unfold chunkRange
  split_ifs
  · exact isCut_ceil hd
  · exact isCut_balanced hd

end Cut

/-! ### One tensor dimension -/

section Dimension

variable {mesh uneven coord : List ℕ} {slice : ℕ × ℕ} {dims : List ℕ} {d t : ℕ}

/-- A coordinate of the mesh. -/
def IsCoordinate (mesh coord : List ℕ) : Prop :=
  ∀ d < mesh.length, coord.getD d 0 < mesh.getD d 1

/-- One step of `_infer_tensor_dimension_slice`: the slice is cut along a mesh dimension. -/
def cutSlice (mesh uneven coord : List ℕ) (slice : ℕ × ℕ) (d : ℕ) : ℕ × ℕ :=
  let chunk := chunkRange mesh uneven d (slice.2 - slice.1) (coord.getD d 0)
  (slice.1 + chunk.1, slice.1 + chunk.1 + chunk.2 - chunk.1)

/-- The mesh dimensions that shard a tensor dimension, in the order in which they cut it. -/
def TensorMapping.meshDims (mesh : List ℕ) (mapping : TensorMapping) : List ℕ :=
  (mapping.mappedDims.filter (· ≠ -1)).map (meshDim mesh)

theorem inferTensorDimensionSlice_eq (size : ℕ) (mapping : TensorMapping) :
    inferTensorDimensionSlice size mapping mesh coord uneven =
      (mapping.meshDims mesh).foldl (cutSlice mesh uneven coord) (0, size) := by
  rw [inferTensorDimensionSlice, TensorMapping.meshDims, List.foldl_map, List.foldl_filter]
  congr 1
  funext slice a
  by_cases ha : a = -1
  · simp [ha]
  · simp only [ha, cutSlice, chunkRange, if_false, ne_eq, not_false_eq_true, decide_true, if_true]
    split_ifs <;> rfl

theorem cutSlice_bounds (uneven : List ℕ) (slice : ℕ × ℕ) (hc : IsCoordinate mesh coord) (hd : d < mesh.length)
    (hs : slice.1 ≤ slice.2) :
    slice.1 ≤ (cutSlice mesh uneven coord slice d).1 ∧
      (cutSlice mesh uneven coord slice d).1 ≤ (cutSlice mesh uneven coord slice d).2 ∧
      (cutSlice mesh uneven coord slice d).2 ≤ slice.2 := by
  have hlt := hc d hd
  have hcut : IsCut (chunkRange mesh uneven d (slice.2 - slice.1)) _ _ :=
    isCut_chunkRange (Nat.zero_lt_of_lt hlt)
  have hle := hcut.le hlt
  have hsize := hcut.le_size hlt
  simp only [cutSlice]
  omega

theorem foldl_cutSlice_bounds (uneven dims : List ℕ) (slice : ℕ × ℕ)
    (hc : IsCoordinate mesh coord) (hd : ∀ d ∈ dims, d < mesh.length)
    (hs : slice.1 ≤ slice.2) :
    slice.1 ≤ (dims.foldl (cutSlice mesh uneven coord) slice).1 ∧
      (dims.foldl (cutSlice mesh uneven coord) slice).1 ≤
        (dims.foldl (cutSlice mesh uneven coord) slice).2 ∧
      (dims.foldl (cutSlice mesh uneven coord) slice).2 ≤ slice.2 := by
  induction dims generalizing slice with
  | nil => exact ⟨le_rfl, hs, le_rfl⟩
  | cons d dims ih =>
    have h1 := cutSlice_bounds uneven slice hc (hd d List.mem_cons_self) hs
    have h2 := ih _ (fun e he => hd e (List.mem_cons_of_mem _ he)) h1.2.1
    exact ⟨h1.1.trans h2.1, h2.2.1, h2.2.2.trans h1.2.2⟩

/-- The coordinate has the values that the list prescribes. -/
def Agrees (coord : List ℕ) (A : List (ℕ × ℕ)) : Prop := ∀ p ∈ A, coord.getD p.1 0 = p.2

/-- A slice depends only on the coordinates it is cut along. -/
theorem foldl_cutSlice_congr {coord' : List ℕ}
    (h : ∀ d ∈ dims, coord.getD d 0 = coord'.getD d 0) :
    dims.foldl (cutSlice mesh uneven coord) slice =
      dims.foldl (cutSlice mesh uneven coord') slice := by
  refine List.foldl_ext _ _ _ fun slice d hd => ?_
  simp only [cutSlice, h d hd]

/-- An element of a range is in the slice of exactly one choice of coordinates along the mesh
dimensions that cut it. -/
theorem exists_agrees (uneven : List ℕ) (slice : ℕ × ℕ) (hd : ∀ d ∈ dims, d < mesh.length) (hmesh : ∀ n ∈ mesh, 0 < n)
    (ht : slice.1 ≤ t ∧ t < slice.2) :
    ∃ A : List (ℕ × ℕ), A.map Prod.fst = dims ∧ (∀ p ∈ A, p.2 < mesh.getD p.1 1) ∧
      ∀ coord, IsCoordinate mesh coord →
        ((dims.foldl (cutSlice mesh uneven coord) slice).1 ≤ t ∧
          t < (dims.foldl (cutSlice mesh uneven coord) slice).2 ↔ Agrees coord A) := by
  induction dims generalizing slice with
  | nil => exact ⟨[], rfl, by simp, fun coord _ => by simpa [Agrees] using ht⟩
  | cons d dims ih =>
    have hdmem := hd d List.mem_cons_self
    have hpos : 0 < mesh.getD d 1 := by
      rw [List.getD_eq_getElem _ _ hdmem]
      exact hmesh _ (List.getElem_mem hdmem)
    have hcut : IsCut (chunkRange mesh uneven d (slice.2 - slice.1)) _ _ := isCut_chunkRange hpos
    -- the piece of the first cut that holds the element
    obtain ⟨k, hk, hklo, hkhi⟩ := hcut.exists_piece (t := t - slice.1) (by omega)
    have hle := hcut.le hk
    obtain ⟨A, hA, hval, hiff⟩ := ih (slice.1 + (chunkRange mesh uneven d (slice.2 - slice.1) k).1,
      slice.1 + (chunkRange mesh uneven d (slice.2 - slice.1) k).1 +
      (chunkRange mesh uneven d (slice.2 - slice.1) k).2 -
      (chunkRange mesh uneven d (slice.2 - slice.1) k).1)
      (fun e he => hd e (List.mem_cons_of_mem _ he)) (by simp only; omega)
    refine ⟨(d, k) :: A, by simp [hA], List.forall_mem_cons.2 ⟨hk, hval⟩, fun coord hc => ?_⟩
    rw [List.foldl_cons, Agrees, List.forall_mem_cons]
    by_cases hdk : coord.getD d 0 = k
    · rw [cutSlice, hdk]
      exact (hiff coord hc).trans (by simp [Agrees])
    · -- another piece does not hold the element, and neither does a part of it
      refine iff_of_false (fun hmem => hdk ?_) fun h => hdk h.1
      have hb := foldl_cutSlice_bounds uneven dims _ hc
        (fun e he => hd e (List.mem_cons_of_mem _ he))
        (cutSlice_bounds uneven slice hc hdmem (by omega)).2.1
      have hle' := hcut.le (hc d hdmem)
      refine hcut.piece_unique (t := t - slice.1) (hc d hdmem) hk ?_ ⟨hklo, hkhi⟩
      simp only [cutSlice] at hb hmem
      omega

end Dimension

/-! ### All tensor dimensions -/

section Area

variable {mesh uneven coord fullShape g : List ℕ} {tensorMap : List TensorMapping} {rank : ℕ}

theorem calculateMeshCoordinateForRank_eq :
    calculateMeshCoordinateForRank mesh rank = MixedRadix.digits mesh rank := by
  have h : mesh.foldr (fun n acc => (acc.2 % n :: acc.1, acc.2 / n)) (([] : List ℕ), rank) =
      (MixedRadix.digits mesh rank, rank / mesh.prod) := by
    induction mesh with
    | nil => simp
    | cons n mesh ih =>
      rw [List.foldr_cons, ih, MixedRadix.digits_cons, List.prod_cons, Nat.div_div_eq_div_mul,
        Nat.mul_comm]
  rw [calculateMeshCoordinateForRank, h]

theorem isCoordinate_calculate (hmesh : ∀ n ∈ mesh, 0 < n) :
    IsCoordinate mesh (calculateMeshCoordinateForRank mesh rank) := by
  intro d hd
  have h := MixedRadix.digits_lt (k := rank) hmesh
  rw [calculateMeshCoordinateForRank_eq, List.getD_eq_getElem _ _ (by simpa using hd),
    List.getD_eq_getElem _ _ hd]
  exact (List.forall₂_iff_get.1 h).2 d (by simpa using hd) hd

/-- The slice of a coordinate. -/
def sliceArea (mesh uneven coord fullShape : List ℕ) (tensorMap : List TensorMapping) :
    List (ℕ × ℕ) :=
  List.zipWith (fun size mapping => (mapping.meshDims mesh).foldl (cutSlice mesh uneven coord)
    (0, size)) fullShape tensorMap

theorem inferSliceAreaByRank_eq :
    inferSliceAreaByRank mesh tensorMap rank fullShape uneven =
      sliceArea mesh uneven (calculateMeshCoordinateForRank mesh rank) fullShape tensorMap := by
  simp only [inferSliceAreaByRank, sliceArea, inferTensorDimensionSlice_eq]

/-- The mesh dimensions a tensor map uses. -/
def usedDims (mesh : List ℕ) (tensorMap : List TensorMapping) : List ℕ :=
  tensorMap.flatMap (TensorMapping.meshDims mesh)

theorem usedDims_eq : usedDims mesh tensorMap =
    ((tensorMap.flatMap TensorMapping.mappedDims).filter (· ≠ -1)).map (meshDim mesh) := by
  rw [usedDims, List.filter_flatMap, List.map_flatMap]
  rfl

theorem usedDims_lt (h : IsTensorMap mesh tensorMap) :
    ∀ d ∈ usedDims mesh tensorMap, d < mesh.length := by
  intro d hd
  rw [usedDims_eq] at hd
  obtain ⟨a, ha, rfl⟩ := List.mem_map.1 hd
  obtain ⟨ha, hne⟩ := List.mem_filter.1 ha
  have := h.axis_valid a ha
  rw [decide_eq_true_eq] at hne
  unfold meshDim
  omega

theorem nodup_usedDims (h : IsTensorMap mesh tensorMap) : (usedDims mesh tensorMap).Nodup := by
  rw [usedDims_eq]
  refine h.nodup.map_on fun a ha b hb hab => ?_
  obtain ⟨ha, hane⟩ := List.mem_filter.1 ha
  obtain ⟨hb, hbne⟩ := List.mem_filter.1 hb
  have h1 := h.axis_valid a ha
  have h2 := h.axis_valid b hb
  rw [decide_eq_true_eq] at hane hbne
  unfold meshDim at hab
  omega

/-- The ranks that hold a global element are those with the right coordinates along the mesh
dimensions in use. -/
theorem exists_agrees_area (uneven : List ℕ)
    (hd : ∀ d ∈ usedDims mesh tensorMap, d < mesh.length)
    (hmesh : ∀ n ∈ mesh, 0 < n) (hlen : tensorMap.length = fullShape.length)
    (hg : g ∈ Box.localPoints fullShape) :
    ∃ A : List (ℕ × ℕ), A.map Prod.fst = usedDims mesh tensorMap ∧
      (∀ p ∈ A, p.2 < mesh.getD p.1 1) ∧ ∀ coord, IsCoordinate mesh coord →
        (g ∈ Box.points (sliceArea mesh uneven coord fullShape tensorMap) ↔ Agrees coord A) := by
  induction fullShape generalizing tensorMap g with
  | nil =>
    obtain rfl := List.length_eq_zero_iff.1 hlen
    exact ⟨[], rfl, by simp, fun coord _ => by simpa [sliceArea, Agrees] using hg⟩
  | cons size fullShape ih =>
    obtain ⟨mapping, tensorMap, rfl⟩ := List.exists_cons_of_length_eq_add_one hlen
    obtain ⟨t, g, ht, hg', rfl⟩ := List.forall₂_cons_right_iff.1 hg
    rw [usedDims, List.flatMap_cons] at hd ⊢
    obtain ⟨A, hA, hval, hiff⟩ := exists_agrees uneven (0, size) (t := t)
      (fun d h => hd d (List.mem_append_left _ h)) hmesh ⟨Nat.zero_le t, ht⟩
    obtain ⟨B, hB, hval', hiff'⟩ := ih (fun d h => hd d (List.mem_append_right _ h))
      (by simpa using hlen) hg'
    refine ⟨A ++ B, by rw [List.map_append, hA, hB]; rfl, fun p hp => ?_, fun coord hc => ?_⟩
    · rcases List.mem_append.1 hp with hp | hp
      · exact hval p hp
      · exact hval' p hp
    · rw [sliceArea, List.zipWith_cons_cons, Box.mem_points_cons, hiff coord hc]
      refine (and_congr_right fun _ => hiff' coord hc).trans ?_
      simp only [Agrees, List.forall_mem_append]

/-- A slice stays inside the global shape. -/
theorem sliceArea_within (hc : IsCoordinate mesh coord)
    (hd : ∀ d ∈ usedDims mesh tensorMap, d < mesh.length)
    (hlen : tensorMap.length = fullShape.length) :
    Box.Within (sliceArea mesh uneven coord fullShape tensorMap) fullShape ∧
      ∀ r ∈ sliceArea mesh uneven coord fullShape tensorMap, r.1 ≤ r.2 := by
  induction fullShape generalizing tensorMap with
  | nil =>
    obtain rfl := List.length_eq_zero_iff.1 hlen
    exact ⟨List.Forall₂.nil, by simp [sliceArea]⟩
  | cons size fullShape ih =>
    obtain ⟨mapping, tensorMap, rfl⟩ := List.exists_cons_of_length_eq_add_one hlen
    rw [usedDims, List.flatMap_cons] at hd
    have hb := foldl_cutSlice_bounds uneven (mapping.meshDims mesh) (0, size) hc
      (fun d h => hd d (List.mem_append_left _ h)) (Nat.zero_le size)
    have hrest := ih (fun d h => hd d (List.mem_append_right _ h)) (by simpa using hlen)
    exact ⟨List.Forall₂.cons hb.2.2 hrest.1, List.forall_mem_cons.2 ⟨hb.2.1, hrest.2⟩⟩

/-- Coordinates that agree along the mesh dimensions in use have the same slice. -/
theorem sliceArea_congr {coord' : List ℕ}
    (h : ∀ d ∈ usedDims mesh tensorMap, coord.getD d 0 = coord'.getD d 0) :
    sliceArea mesh uneven coord fullShape tensorMap =
      sliceArea mesh uneven coord' fullShape tensorMap := by
  induction fullShape generalizing tensorMap with
  | nil => rfl
  | cons size fullShape ih =>
    cases tensorMap with
    | nil => rfl
    | cons mapping tensorMap =>
      rw [usedDims, List.flatMap_cons] at h
      rw [sliceArea, sliceArea, List.zipWith_cons_cons, List.zipWith_cons_cons,
        foldl_cutSlice_congr fun d hd => h d (List.mem_append_left _ hd)]
      exact congrArg _ (ih fun d hd => h d (List.mem_append_right _ hd))

end Area

/-! ### How many ranks hold an element -/

section Count

variable {mesh uneven fullShape g : List ℕ} {tensorMap : List TensorMapping}
  {A : List (ℕ × ℕ)}

/-- The prescribed coordinates, place by place. -/
def constraints (mesh : List ℕ) (A : List (ℕ × ℕ)) : List (Option ℕ) :=
  (List.range mesh.length).map fun d => A.lookup d

theorem agrees_iff_matches (hA : (A.map Prod.fst).Nodup) (hlt : ∀ p ∈ A, p.1 < mesh.length)
    {coord : List ℕ} (hcoord : coord.length = mesh.length) :
    Agrees coord A ↔ MixedRadix.Matches coord (constraints mesh A) := by
  rw [MixedRadix.Matches, List.forall₂_iff_get]
  simp only [constraints, List.length_map, List.length_range, hcoord, List.get_eq_getElem,
    List.getElem_map, List.getElem_range, Dict.lookup_eq_some_iff hA, true_and]
  constructor
  · intro h i hi _ v hv
    rw [← List.getD_eq_getElem coord 0]
    exact h _ hv
  · intro h p hp
    have hlen : p.1 < coord.length := hcoord ▸ hlt p hp
    rw [List.getD_eq_getElem coord 0 hlen]
    exact h p.1 (hlt p hp) (hlt p hp) p.2 hp

theorem prod_map_range (f : ℕ → ℕ) (n : ℕ) : ((List.range n).map f).prod = ∏ d ∈ Finset.range n, f d :=
  rfl

theorem map_range_getD (mesh : List ℕ) : (List.range mesh.length).map (fun d => mesh.getD d 1) = mesh := by
  refine List.ext_getElem (by simp) fun d h1 h2 => ?_
  rw [List.getElem_map, List.getElem_range, List.getD_eq_getElem mesh 1 h2]

/-- The free places and the prescribed ones make up the mesh. -/
theorem prod_choices (hA : (A.map Prod.fst).Nodup) (hlt : ∀ p ∈ A, p.1 < mesh.length)
    (hval : ∀ p ∈ A, p.2 < mesh.getD p.1 1) :
    (List.zipWith MixedRadix.choices mesh (constraints mesh A)).prod *
      ((A.map Prod.fst).map fun d => mesh.getD d 1).prod = mesh.prod := by
  have hchoices : ∀ d, MixedRadix.choices (mesh.getD d 1) (A.lookup d) =
      if d ∈ A.map Prod.fst then 1 else mesh.getD d 1 := by
    intro d
    cases hv : A.lookup d with
    | none =>
      have hnot : d ∉ A.map Prod.fst := by
        intro h
        obtain ⟨⟨e, v⟩, hp, rfl⟩ := List.mem_map.1 h
        rw [(Dict.lookup_eq_some_iff hA).2 hp] at hv
        cases hv
      rw [if_neg hnot]
      rfl
    | some v =>
      have hp := (Dict.lookup_eq_some_iff hA).1 hv
      rw [if_pos (List.mem_map_of_mem (f := Prod.fst) hp), MixedRadix.choices, if_pos (hval _ hp)]
  have hzip : List.zipWith MixedRadix.choices mesh (constraints mesh A) =
      (List.range mesh.length).map fun d =>
        if d ∈ A.map Prod.fst then 1 else mesh.getD d 1 := by
    refine List.ext_getElem (by simp [constraints]) fun d h1 h2 => ?_
    have hd : d < mesh.length := by simpa using h2
    simp only [constraints, List.getElem_zipWith, List.getElem_map, List.getElem_range,
      ← hchoices, List.getD_eq_getElem mesh 1 hd]
  have hused : ((A.map Prod.fst).map fun d => mesh.getD d 1).prod =
      ∏ d ∈ Finset.range mesh.length, if d ∈ A.map Prod.fst then mesh.getD d 1 else 1 := by
    rw [← List.prod_toFinset _ hA, ← Finset.prod_filter]
    refine Finset.prod_congr ?_ fun _ _ => rfl
    ext d
    simp only [List.mem_toFinset, Finset.mem_filter, Finset.mem_range]
    refine ⟨fun h => ⟨?_, h⟩, fun h => h.2⟩
    obtain ⟨p, hp, rfl⟩ := List.mem_map.1 h
    exact hlt p hp
  rw [hzip, hused, prod_map_range, ← Finset.prod_mul_distrib]
  conv_rhs => rw [← map_range_getD mesh, prod_map_range]
  refine Finset.prod_congr rfl fun d _ => ?_
  split_ifs <;> simp

/-- The divisor of `repeat_num`. -/
theorem repeatNum_eq (h : IsTensorMap mesh tensorMap) : repeatNum mesh tensorMap =
    mesh.prod / ((usedDims mesh tensorMap).map fun d => mesh.getD d 1).prod := by
  rw [repeatNum, usedDims_eq, List.map_map]
  congr 1
  have hvalid := h.axis_valid
  generalize tensorMap.flatMap TensorMapping.mappedDims = l at hvalid ⊢
  induction l with
  | nil => rfl
  | cons a l ih =>
    have ha := hvalid a List.mem_cons_self
    rw [List.map_cons, List.prod_cons, ih fun b hb => hvalid b (List.mem_cons_of_mem _ hb),
      List.filter_cons]
    by_cases hne : a = -1
    · simp [hne]
    · have : 0 ≤ a := by omega
      simp [hne, this]

theorem repeatNum_pos (hmesh : ∀ n ∈ mesh, 0 < n) (h : IsTensorMap mesh tensorMap) :
    0 < repeatNum mesh tensorMap := by
  have hused := usedDims_lt h
  have hA : ((usedDims mesh tensorMap).map fun d => (d, 0)).map Prod.fst =
      usedDims mesh tensorMap := by
    simp [Function.comp_def]
  have hprod := prod_choices (A := (usedDims mesh tensorMap).map fun d => (d, 0))
    (by rw [hA]; exact nodup_usedDims h) (by simpa using hused) (by
      intro p hp
      obtain ⟨d, hd, rfl⟩ := List.mem_map.1 hp
      rw [List.getD_eq_getElem _ _ (hused d hd)]
      exact hmesh _ (List.getElem_mem _))
  rw [hA] at hprod
  have hpos : 0 < mesh.prod := List.prod_pos hmesh
  rw [repeatNum_eq h, ← hprod]
  rw [← hprod] at hpos
  rw [Nat.mul_div_cancel _ (Nat.pos_of_mul_pos_left hpos)]
  exact Nat.pos_of_mul_pos_right hpos

/-- Every element of the global tensor is held by exactly `repeat_num` ranks. -/
theorem card_ranks_of_element (hmesh : ∀ n ∈ mesh, 0 < n) (h : IsTensorMap mesh tensorMap)
    (hlen : tensorMap.length = fullShape.length) (hg : g ∈ Box.localPoints fullShape) :
    ((Finset.range mesh.prod).filter fun rank =>
      g ∈ Box.points (inferSliceAreaByRank mesh tensorMap rank fullShape uneven)).card =
      repeatNum mesh tensorMap := by
  obtain ⟨A, hA, hval, hiff⟩ := exists_agrees_area uneven (usedDims_lt h) hmesh hlen hg
  have hnodup : (A.map Prod.fst).Nodup := hA ▸ nodup_usedDims h
  have hlt : ∀ p ∈ A, p.1 < mesh.length := fun p hp =>
    usedDims_lt h _ (hA ▸ List.mem_map_of_mem (f := Prod.fst) hp)
  have hset : ((Finset.range mesh.prod).filter fun rank =>
      g ∈ Box.points (inferSliceAreaByRank mesh tensorMap rank fullShape uneven)) =
      (Finset.range mesh.prod).filter fun rank =>
        MixedRadix.Matches (MixedRadix.digits mesh rank) (constraints mesh A) := by
    refine Finset.filter_congr fun rank _ => ?_
    rw [inferSliceAreaByRank_eq, hiff _ (isCoordinate_calculate hmesh),
      calculateMeshCoordinateForRank_eq]
    exact agrees_iff_matches hnodup hlt (by simp)
  rw [hset, MixedRadix.card_filter_matches (by simp [constraints]), repeatNum_eq h, ← hA,
    ← prod_choices hnodup hlt hval]
  refine (Nat.mul_div_cancel _ ?_).symm
  refine List.prod_pos fun n hn => ?_
  obtain ⟨d, hd, rfl⟩ := List.mem_map.1 hn
  obtain ⟨p, hp, rfl⟩ := List.mem_map.1 hd
  exact Nat.zero_lt_of_lt (hval p hp)

end Count

/-- The slices of the ranks of a mesh partition the global index space up to replication. -/
theorem slices_partition (meshShape : List ℕ) (tensorMap : List TensorMapping)
    (fullShape unevenShardMeshDims : List ℕ) (hmesh : ∀ n ∈ meshShape, 0 < n)
    (h : IsTensorMap meshShape tensorMap) (hlen : tensorMap.length = fullShape.length) :
    (∀ g ∈ Box.localPoints fullShape, ((Finset.range meshShape.prod).filter fun rank =>
      g ∈ Box.points (inferSliceAreaByRank meshShape tensorMap rank fullShape
        unevenShardMeshDims)).card = repeatNum meshShape tensorMap) ∧
    (∀ rank, Box.Within (inferSliceAreaByRank meshShape tensorMap rank fullShape
        unevenShardMeshDims) fullShape ∧
      ∀ r ∈ inferSliceAreaByRank meshShape tensorMap rank fullShape unevenShardMeshDims,
        r.1 ≤ r.2) ∧
    ∀ rank rank', (∀ d ∈ usedDims meshShape tensorMap,
        (calculateMeshCoordinateForRank meshShape rank).getD d 0 =
          (calculateMeshCoordinateForRank meshShape rank').getD d 0) →
      inferSliceAreaByRank meshShape tensorMap rank fullShape unevenShardMeshDims =
        inferSliceAreaByRank meshShape tensorMap rank' fullShape unevenShardMeshDims := by
  refine ⟨fun g hg => card_ranks_of_element hmesh h hlen hg, fun rank => ?_,
    fun rank rank' hcoord => ?_⟩
  · rw [inferSliceAreaByRank_eq]
    exact sliceArea_within (isCoordinate_calculate hmesh) (usedDims_lt h) hlen
  · rw [inferSliceAreaByRank_eq, inferSliceAreaByRank_eq]
    exact sliceArea_congr hcoord

/-- A mesh of two by four: the first tensor dimension cut by ceil chunks along its second
dimension after a balanced cut along its first, the second tensor dimension whole. One rank
alone holds the element at `[4, 2]`. -/
theorem slices_partition_two_four :
    ((Finset.range 8).filter fun rank =>
      [4, 2] ∈ Box.points (inferSliceAreaByRank [2, 4] [.axes [1, 0], .axis (-1)] rank [5, 3]
        [1])).card = 1 :=
  (slices_partition [2, 4] [.axes [1, 0], .axis (-1)] [5, 3] [1] (by decide)
    ⟨by decide, by decide⟩ rfl).1 [4, 2] (by simp)

end HyperParallel.DTensor

import HyperParallel.DTensor.PlacementRoundTrip
import HyperParallel.Lib.Tensor
import Mathlib.Algebra.BigOperators.Group.Finset.Basic

/-!
# Tensors on a mesh

What a layout says about the local tensors of the ranks of a mesh. A rank is given by its position
in `rank_list`.

* `Mesh`, `Layout`: a device mesh, and a layout with its pending reductions;
* `Mesh.groupLocalRank`: the place of a rank in the communication group of a mesh dimension;
* `Layout.toLocal`: the shard of a rank;
* `Layout.Represents`: local tensors whose pending sums are the shards of a global tensor;
* `existsUnique_peer`: among the ranks that differ along the axes of a tensor dimension, one holds
  a given row.
-/

open scoped BigOperators
open MixedRadix

namespace HyperParallel.DTensor

/-- The part of `DeviceMesh` that layouts read. -/
structure Mesh where
  shape : List ℕ
  aliasName : List String
  rankList : List ℕ
  shape_pos : ∀ n ∈ shape, 0 < n
  length_aliasName : aliasName.length = shape.length
  length_rankList : rankList.length = shape.prod
  nodup_rankList : rankList.Nodup

/-- `_support_partial_op` -/
inductive PartialOp
  | sum | max | min | avg | prod | all
  deriving DecidableEq, Repr

/-- `Layout`: the alias tensor map, the tensor map it was processed to, and for every mesh dimension
the reduction that is pending. -/
structure Layout (mesh : Mesh) where
  aliasTensorMap : List AliasEntry
  tensorMap : List TensorMapping
  ofAlias : processAliasLayout mesh.aliasName aliasTensorMap = .ok tensorMap
  pending : List (Option PartialOp)

namespace Mesh

variable (mesh : Mesh)

/-- The coordinate of the rank at a position. -/
def coordinate (k : ℕ) : List ℕ := calculateMeshCoordinateForRank mesh.shape k

/-- The ranks along a mesh dimension, through the rank at a position. -/
def ranksAlong (d k : ℕ) : List ℕ :=
  (List.range (mesh.shape.getD d 1)).map fun v =>
    mesh.rankList.getD (ofDigits mesh.shape ((mesh.coordinate k).set d v)) 0

/-- `get_group_local_rank` of the group of `get_comm_group_by_axis`, whose ranks are sorted. -/
def groupLocalRank (d k : ℕ) : ℕ :=
  ((mesh.ranksAlong d k).insertionSort (· ≤ ·)).idxOf (mesh.rankList.getD k 0)

/-- The positions whose coordinate is that of a position outside the given mesh dimensions. -/
def peers (dims : List ℕ) (k : ℕ) : Finset ℕ :=
  (Finset.range mesh.shape.prod).filter fun k' =>
    ∀ d < mesh.shape.length, d ∉ dims → (mesh.coordinate k').getD d 0 = (mesh.coordinate k).getD d 0

end Mesh

/-- The names of an entry that are not `"None"`. -/
def AliasEntry.shardNames : AliasEntry → List String
  | .name item => [item].filter (· ≠ "None")
  | .names items => items.filter (· ≠ "None")

/-- The mesh dimensions of an entry. -/
def AliasEntry.dims (aliasName : List String) (entry : AliasEntry) : List ℕ :=
  entry.shardNames.map aliasName.idxOf

/-- A place in a slice as a place in the whole, and the shape of a slice. -/
def globalIndex (area : List (ℕ × ℕ)) (idx : List ℕ) : List ℕ :=
  List.zipWith (fun r i => r.1 + i) area idx

def areaShape (area : List (ℕ × ℕ)) : List ℕ := area.map fun r => r.2 - r.1

namespace Layout

variable {mesh : Mesh} {α : Type} (layout : Layout mesh)

/-- `Layout.__call__` on alias names: no reduction is pending. -/
def call (mesh : Mesh) (entries : List AliasEntry) : Except LayoutError (Layout mesh) :=
  match h : processAliasLayout mesh.aliasName entries with
  | .ok tensorMap => .ok ⟨entries, tensorMap, h, List.replicate mesh.shape.length none⟩
  | .error e => .error e

/-- `is_partial` -/
def isPartial : Bool := layout.pending.any Option.isSome

/-- `is_dev_axis_apply_shard` -/
def isDevAxisApplyShard (axis : String) : Bool :=
  axisOf mesh.aliasName axis ∈ layout.tensorMap.flatMap TensorMapping.mappedDims

/-- `set_partial_by_dev_axis`; `none` stands for `Partial dim must be replicate.` -/
def setPartialByDevAxis (axis : String) (op : PartialOp) : Option (Layout mesh) :=
  if layout.isDevAxisApplyShard axis then none
  else some { layout with pending := layout.pending.set (mesh.aliasName.idxOf axis) (some op) }

/-- The mesh dimensions with a pending reduction. -/
def pendingDims : List ℕ :=
  (List.range mesh.shape.length).filter fun d => (layout.pending.getD d none).isSome

/-- The slice of a rank. -/
def area (shape : List ℕ) (k : ℕ) : List (ℕ × ℕ) :=
  inferSliceAreaByRank mesh.shape layout.tensorMap k shape []

/-- The shard of a rank. -/
def toLocal [Zero α] (x : Tensor α) (k : ℕ) : Tensor α :=
  Tensor.ofEntries (areaShape (layout.area x.shape k)) fun idx =>
    x.entry (globalIndex (layout.area x.shape k) idx)

/-- Every dimension is cut evenly. -/
def Even (shape : List ℕ) : Prop :=
  List.Forall₂ (fun mapping size =>
    ((mapping.meshDims mesh.shape).map fun d => mesh.shape.getD d 1).prod ∣ size)
    layout.tensorMap shape

/-- The sums that are pending make the shards of a global tensor. -/
structure Represents [AddCommMonoid α] (locals : ℕ → Tensor α) (x : Tensor α) : Prop where
  shape : ∀ k < mesh.shape.prod, (locals k).shape = (layout.toLocal x k).shape
  entry : ∀ k < mesh.shape.prod, ∀ idx, Valid (locals k).shape idx →
    ∑ k' ∈ mesh.peers layout.pendingDims k, (locals k').entry idx = (layout.toLocal x k).entry idx

end Layout

/-! ### Places in a slice -/

section Place

theorem zipWith_set {β γ δ : Type} (f : β → γ → δ) (l : List β) (m : List γ) (a : ℕ) (x : β)
    (y : γ) : List.zipWith f (l.set a x) (m.set a y) = (List.zipWith f l m).set a (f x y) := by
  induction l generalizing m a with
  | nil => simp
  | cons b l ih =>
    cases m with
    | nil => simp
    | cons c m =>
      cases a with
      | zero => rfl
      | succ a => exact congrArg (f b c :: ·) (ih m a)

variable {area : List (ℕ × ℕ)} {shape idx : List ℕ} {a : ℕ}

theorem globalIndex_set (area : List (ℕ × ℕ)) (idx : List ℕ) (a i : ℕ) (r : ℕ × ℕ) :
    globalIndex (area.set a r) (idx.set a i) = (globalIndex area idx).set a (r.1 + i) :=
  zipWith_set _ _ _ _ _ _

theorem valid_globalIndex (h : Box.Within area shape) (hidx : Valid (areaShape area) idx) :
    Valid shape (globalIndex area idx) := by
  induction h generalizing idx with
  | nil =>
    cases hidx
    exact .nil
  | @cons r n area shape hr _ ih =>
    cases idx with
    | nil => cases hidx
    | cons i idx =>
      obtain ⟨hi, hrest⟩ := List.forall₂_cons.1 hidx
      have hplace : r.1 + i < n := by
        have : i < r.2 - r.1 := hi
        omega
      exact .cons hplace (ih hrest)

theorem within_set {m : ℕ} {r : ℕ × ℕ} (h : Box.Within area shape) (hr : r.2 ≤ m) :
    Box.Within (area.set a r) (shape.set a m) := by
  induction h generalizing a with
  | nil => exact .nil
  | @cons s n area shape hs hrest ih =>
    cases a with
    | zero => exact .cons hr hrest
    | succ a => exact .cons hs ih

end Place

/-! ### Even cuts -/

section Even

variable {mesh coord : List ℕ}

/-- The number of a shard: the coordinates along its axes as digits. -/
def shardIndex (mesh coord dims : List ℕ) : ℕ :=
  ofDigits (dims.map fun d => mesh.getD d 1) (dims.map fun d => coord.getD d 0)

theorem foldl_cutSlice_even (dims : List ℕ) (a L : ℕ) (hc : IsCoordinate mesh coord)
    (hd : ∀ d ∈ dims, d < mesh.length) :
    dims.foldl (cutSlice mesh [] coord) (a, a + (dims.map fun d => mesh.getD d 1).prod * L) =
      (a + shardIndex mesh coord dims * L, a + shardIndex mesh coord dims * L + L) := by
  induction dims generalizing a with
  | nil => simp [shardIndex, ofDigits]
  | cons d dims ih =>
    have hlt := hc d (hd d List.mem_cons_self)
    have hn : 0 < mesh.getD d 1 := Nat.zero_lt_of_lt hlt
    have hsize : mesh.getD d 1 * (dims.map fun d => mesh.getD d 1).prod * L =
        mesh.getD d 1 * ((dims.map fun d => mesh.getD d 1).prod * L) := Nat.mul_assoc _ _ _
    have hcut : cutSlice mesh [] coord
        (a, a + ((d :: dims).map fun d => mesh.getD d 1).prod * L) d =
        (a + coord.getD d 0 * ((dims.map fun d => mesh.getD d 1).prod * L),
          a + coord.getD d 0 * ((dims.map fun d => mesh.getD d 1).prod * L) +
            (dims.map fun d => mesh.getD d 1).prod * L) := by
      simp only [cutSlice, chunkRange, List.not_mem_nil, if_false, inferBalancedChunkRange,
        List.map_cons, List.prod_cons, Nat.add_sub_cancel_left, hsize, Nat.mul_mod_right,
        Nat.mul_div_cancel_left _ hn, Nat.min_zero, Nat.not_lt_zero, Nat.add_zero]
      refine Prod.ext rfl ?_
      simp only
      omega
    rw [List.foldl_cons, hcut, ih _ fun e he => hd e (List.mem_cons_of_mem _ he)]
    have hindex : shardIndex mesh coord (d :: dims) =
        coord.getD d 0 * (dims.map fun d => mesh.getD d 1).prod + shardIndex mesh coord dims := by
      rw [shardIndex, List.map_cons, List.map_cons, ofDigits, Nat.mod_eq_of_lt hlt]
      rfl
    rw [hindex, Nat.add_mul, Nat.mul_assoc]
    simp only [Nat.add_assoc]

theorem shardIndex_lt {dims : List ℕ} (hc : IsCoordinate mesh coord)
    (hd : ∀ d ∈ dims, d < mesh.length) :
    shardIndex mesh coord dims < (dims.map fun d => mesh.getD d 1).prod := by
  refine ofDigits_lt ?_
  induction dims with
  | nil => exact .nil
  | cons d dims ih =>
    exact .cons (hc d (hd d List.mem_cons_self)) (ih fun e he => hd e (List.mem_cons_of_mem _ he))

end Even

/-! ### Alias names and mesh dimensions -/

section Alias

variable {aliasName written written' : List String} {mesh : List ℕ}

theorem meshDim_axisOf (hlen : aliasName.length = mesh.length) {item : String}
    (h : item ∈ aliasName) : meshDim mesh (axisOf aliasName item) = aliasName.idxOf item := by
  have := List.idxOf_lt_length_iff.2 h
  unfold meshDim axisOf
  omega

theorem aliasAxis_shards {item : String} {axis : ℤ} (hlen : aliasName.length = mesh.length)
    (h : aliasAxis aliasName written item = .ok (axis, written')) :
    ([axis].filter (· ≠ -1)).map (meshDim mesh) =
      ([item].filter (· ≠ "None")).map aliasName.idxOf := by
  unfold aliasAxis at h
  split_ifs at h with hnone hmem hwritten
  · obtain ⟨rfl, rfl⟩ := Prod.mk.inj (Except.ok.inj h)
    simp [hnone]
  · obtain ⟨rfl, rfl⟩ := Prod.mk.inj (Except.ok.inj h)
    have hpos : axisOf aliasName item ≠ -1 := by
      have := axisOf_bounds hmem
      omega
    change ([axisOf aliasName item].filter (· ≠ -1)).map (meshDim mesh) = _
    rw [List.filter_eq_self.2 (by simpa using hpos), List.filter_eq_self.2 (by simpa using hnone),
      List.map_singleton, List.map_singleton, meshDim_axisOf hlen hmem]

theorem aliasAxes_shards {items : List String} {axes : List ℤ}
    (hlen : aliasName.length = mesh.length)
    (h : aliasAxes aliasName written items = .ok (axes, written')) :
    (axes.filter (· ≠ -1)).map (meshDim mesh) =
      (items.filter (· ≠ "None")).map aliasName.idxOf := by
  induction items generalizing written axes with
  | nil =>
    obtain ⟨rfl, rfl⟩ := Prod.mk.inj (Except.ok.inj h)
    rfl
  | cons item items ih =>
    obtain ⟨axis, writtenItem, rest, hitem, hrest, rfl⟩ := aliasAxes_cons h
    rw [← List.singleton_append, List.filter_append, List.map_append,
      aliasAxis_shards hlen hitem, ih hrest, ← List.map_append, ← List.filter_append,
      List.singleton_append]

/-- Entry by entry, the mesh dimensions of the names. -/
theorem meshDims_aliasTensorMap {entries : List AliasEntry} {tensorMap : List TensorMapping}
    (hlen : aliasName.length = mesh.length)
    (h : aliasTensorMap aliasName written entries = .ok tensorMap) :
    tensorMap.map (TensorMapping.meshDims mesh) = entries.map (AliasEntry.dims aliasName) := by
  induction entries generalizing written tensorMap with
  | nil =>
    obtain rfl := Except.ok.inj h
    rfl
  | cons entry entries ih =>
    cases entry with
    | name item =>
      obtain ⟨axis, writtenItem, rest, hitem, hrest, rfl⟩ := aliasTensorMap_name h
      rw [List.map_cons, List.map_cons, ih hrest]
      exact congrArg (· :: _) (aliasAxis_shards hlen hitem)
    | names items =>
      obtain ⟨axes, writtenItem, rest, hitem, hrest, rfl⟩ := aliasTensorMap_names h
      rw [List.map_cons, List.map_cons, ih hrest]
      exact congrArg (· :: _) (aliasAxes_shards hlen hitem)

end Alias

/-! ### Positions and coordinates -/

theorem prod_pos_of_dims (mesh : Mesh) (dims : List ℕ) (h : ∀ d ∈ dims, d < mesh.shape.length) :
    0 < (dims.map fun d => mesh.shape.getD d 1).prod := by
  refine List.prod_pos ?_
  intro n hn
  obtain ⟨d, hd, rfl⟩ := List.mem_map.1 hn
  rw [List.getD_eq_getElem _ _ (h d hd)]
  exact mesh.shape_pos _ (List.getElem_mem _)

namespace Mesh

variable {mesh : Mesh} {k k' : ℕ}

theorem coordinate_eq : mesh.coordinate k = digits mesh.shape k :=
  calculateMeshCoordinateForRank_eq

theorem isCoordinate_coordinate : IsCoordinate mesh.shape (mesh.coordinate k) :=
  isCoordinate_calculate mesh.shape_pos

theorem coordinate_ofDigits {c : List ℕ} (h : Valid mesh.shape c) :
    mesh.coordinate (ofDigits mesh.shape c) = c := by
  rw [coordinate_eq, digits_ofDigits h]

theorem eq_of_coordinate_eq (hk : k < mesh.shape.prod) (hk' : k' < mesh.shape.prod)
    (h : ∀ d < mesh.shape.length, (mesh.coordinate k).getD d 0 = (mesh.coordinate k').getD d 0) :
    k = k' := by
  have hdigits : digits mesh.shape k = digits mesh.shape k' := by
    apply List.ext_getElem
    · simp
    · intro d hd hd'
      have hget := h d (by simpa using hd)
      rwa [coordinate_eq, coordinate_eq, List.getD_eq_getElem _ _ hd,
        List.getD_eq_getElem _ _ hd'] at hget
  rw [← Nat.mod_eq_of_lt hk, ← Nat.mod_eq_of_lt hk', ← ofDigits_digits, ← ofDigits_digits, hdigits]

theorem mem_peers {dims : List ℕ} : k' ∈ mesh.peers dims k ↔ k' < mesh.shape.prod ∧
    ∀ d < mesh.shape.length, d ∉ dims →
      (mesh.coordinate k').getD d 0 = (mesh.coordinate k).getD d 0 := by
  rw [peers, Finset.mem_filter, Finset.mem_range]

/-- Of the ranks that differ along the axes of a dimension, exactly one holds a given row. -/
theorem existsUnique_peer {dims : List ℕ} (hnodup : dims.Nodup)
    (hlt : ∀ d ∈ dims, d < mesh.shape.length) {size v : ℕ} (hv : v < size) (k : ℕ) :
    ∃ k' ∈ mesh.peers dims k,
      ∀ l ∈ mesh.peers dims k,
        ((dims.foldl (cutSlice mesh.shape [] (mesh.coordinate l)) (0, size)).1 ≤ v ∧
          v < (dims.foldl (cutSlice mesh.shape [] (mesh.coordinate l)) (0, size)).2 ↔ l = k') := by
  obtain ⟨A, hA, hval, hiff⟩ := exists_agrees [] (0, size) hlt mesh.shape_pos
    (t := v) ⟨Nat.zero_le v, hv⟩
  have hAnodup : (A.map Prod.fst).Nodup := hA ▸ hnodup
  -- the coordinate of the owner: prescribed along the axes, that of `k` elsewhere
  let c := (List.range mesh.shape.length).map fun d =>
    (A.lookup d).getD ((mesh.coordinate k).getD d 0)
  have hc : ∀ d < mesh.shape.length, c.getD d 0 =
      (A.lookup d).getD ((mesh.coordinate k).getD d 0) := by
    intro d hd
    rw [List.getD_eq_getElem _ _ (by simpa [c] using hd)]
    simp [c]
  have hvalid : Valid mesh.shape c := by
    refine List.forall₂_iff_get.2 ⟨by simp [c], ?_⟩
    intro d hd hd'
    have hget := hc d hd'
    rw [List.getD_eq_getElem _ _ hd] at hget
    rw [List.get_eq_getElem, List.get_eq_getElem, hget, ← List.getD_eq_getElem _ 1 hd']
    cases hlookup : A.lookup d with
    | none => exact isCoordinate_coordinate d hd'
    | some w => exact hval _ ((Dict.lookup_eq_some_iff hAnodup).1 hlookup)
  refine ⟨ofDigits mesh.shape c, mem_peers.2 ⟨ofDigits_lt hvalid, ?_⟩, ?_⟩
  · intro d hd hdims
    have hnone : A.lookup d = none := by
      rw [List.lookup_eq_none_iff]
      intro p hp
      rw [bne_iff_ne]
      intro hpd
      exact hdims (hA ▸ List.mem_map.2 ⟨p, hp, hpd.symm⟩)
    rw [coordinate_ofDigits hvalid, hc d hd, hnone, Option.getD_none]
  · intro l hl
    obtain ⟨hlprod, hlpeer⟩ := mem_peers.1 hl
    rw [hiff _ isCoordinate_coordinate]
    constructor
    · intro hagrees
      refine eq_of_coordinate_eq hlprod (ofDigits_lt hvalid) ?_
      intro d hd
      rw [coordinate_ofDigits hvalid, hc d hd]
      cases hlookup : A.lookup d with
      | none =>
        refine hlpeer d hd ?_
        intro hdims
        rw [← hA] at hdims
        obtain ⟨p, hp, rfl⟩ := List.mem_map.1 hdims
        rw [(Dict.lookup_eq_some_iff hAnodup).2 hp] at hlookup
        cases hlookup
      | some w => exact hagrees _ ((Dict.lookup_eq_some_iff hAnodup).1 hlookup)
    · rintro rfl p hp
      have hpd := hlt p.1 (hA ▸ List.mem_map_of_mem (f := Prod.fst) hp)
      rw [coordinate_ofDigits hvalid, hc _ hpd, (Dict.lookup_eq_some_iff hAnodup).2 hp,
        Option.getD_some]

end Mesh

/-! ### The slices of a layout -/

namespace Layout

variable {mesh : Mesh} (layout : Layout mesh) {shape : List ℕ} {k k' a : ℕ}

/-- The mesh dimensions of every entry. -/
def dims : List (List ℕ) := layout.aliasTensorMap.map (AliasEntry.dims mesh.aliasName)

theorem dims_eq : layout.dims = layout.tensorMap.map (TensorMapping.meshDims mesh.shape) :=
  (meshDims_aliasTensorMap mesh.length_aliasName layout.ofAlias).symm

theorem isTensorMap : IsTensorMap mesh.shape layout.tensorMap :=
  isTensorMap_processAliasLayout mesh.length_aliasName layout.ofAlias

theorem flatten_dims : layout.dims.flatten = usedDims mesh.shape layout.tensorMap := by
  rw [dims_eq, usedDims, List.flatMap_def]

theorem nodup_dims : layout.dims.flatten.Nodup := by
  rw [flatten_dims]
  exact nodup_usedDims layout.isTensorMap

theorem getD_dims_subset {d : ℕ} (h : d ∈ layout.dims.getD a []) : d ∈ layout.dims.flatten := by
  by_cases ha : a < layout.dims.length
  · rw [List.getD_eq_getElem _ _ ha] at h
    exact List.mem_flatten_of_mem (List.getElem_mem ha) h
  · rw [List.getD_eq_default _ _ (by omega)] at h
    cases h

theorem lt_of_mem_dims {d : ℕ} (h : d ∈ layout.dims.getD a []) : d < mesh.shape.length :=
  usedDims_lt layout.isTensorMap d (layout.flatten_dims ▸ layout.getD_dims_subset h)

theorem nodup_getD_dims : (layout.dims.getD a []).Nodup := by
  by_cases ha : a < layout.dims.length
  · rw [List.getD_eq_getElem _ _ ha]
    exact (List.nodup_flatten.1 layout.nodup_dims).1 _ (List.getElem_mem ha)
  · rw [List.getD_eq_default _ _ (by omega)]
    exact List.nodup_nil

theorem area_eq : layout.area shape k = List.zipWith (fun size dims =>
    dims.foldl (cutSlice mesh.shape [] (mesh.coordinate k)) (0, size)) shape layout.dims := by
  rw [area, inferSliceAreaByRank_eq, sliceArea, dims_eq, List.zipWith_map_right]
  rfl

theorem even_iff : layout.Even shape ↔
    List.Forall₂ (fun dims size => (dims.map fun d => mesh.shape.getD d 1).prod ∣ size)
      layout.dims shape := by
  rw [Even, dims_eq, List.forall₂_map_left_iff]

theorem Even.length_eq {layout : Layout mesh} (h : layout.Even shape) :
    layout.dims.length = shape.length := (layout.even_iff.1 h).length_eq

theorem Even.dvd {layout : Layout mesh} (h : layout.Even shape) (ha : a < shape.length) :
    ((layout.dims.getD a []).map fun d => mesh.shape.getD d 1).prod ∣ shape.getD a 0 := by
  have hlen := h.length_eq
  have hget := (List.forall₂_iff_get.1 (layout.even_iff.1 h)).2 a (by omega) ha
  rwa [List.getD_eq_getElem _ _ (by omega), List.getD_eq_getElem _ _ ha]

theorem length_area (h : layout.dims.length = shape.length) :
    (layout.area shape k).length = shape.length := by
  rw [area_eq, List.length_zipWith, h, Nat.min_self]

theorem getD_area (h : layout.dims.length = shape.length) (ha : a < shape.length) :
    (layout.area shape k).getD a (0, 0) = (layout.dims.getD a []).foldl
      (cutSlice mesh.shape [] (mesh.coordinate k)) (0, shape.getD a 0) := by
  rw [List.getD_eq_getElem _ _ (by rwa [layout.length_area h]), List.getD_eq_getElem _ _ ha,
    List.getD_eq_getElem _ _ (by omega)]
  simp only [area_eq, List.getElem_zipWith]

theorem getD_area_even (h : layout.Even shape) (ha : a < shape.length) :
    let dims := layout.dims.getD a []
    let size := shape.getD a 0 / (dims.map fun d => mesh.shape.getD d 1).prod
    (layout.area shape k).getD a (0, 0) =
      (shardIndex mesh.shape (mesh.coordinate k) dims * size,
        shardIndex mesh.shape (mesh.coordinate k) dims * size + size) := by
  intro dims size
  have hsize : shape.getD a 0 = (dims.map fun d => mesh.shape.getD d 1).prod * size :=
    (Nat.mul_div_cancel' (h.dvd ha)).symm
  have hcoord : IsCoordinate mesh.shape (mesh.coordinate k) := Mesh.isCoordinate_coordinate
  have hcut := foldl_cutSlice_even dims 0 size hcoord fun d hd => layout.lt_of_mem_dims hd
  rw [Nat.zero_add, ← hsize, Nat.zero_add] at hcut
  rw [layout.getD_area h.length_eq ha, hcut]

theorem within_area (h : layout.Even shape) : Box.Within (layout.area shape k) shape := by
  rw [area, inferSliceAreaByRank_eq]
  exact (sliceArea_within Mesh.isCoordinate_coordinate (usedDims_lt layout.isTensorMap)
    (by rw [← h.length_eq, dims_eq, List.length_map])).1

/-- Slices of ranks whose coordinates agree along the axes in use, one dimension apart. -/
theorem area_set_congr (h : ∀ b < layout.dims.length, b ≠ a → ∀ d ∈ layout.dims.getD b [],
    (mesh.coordinate k').getD d 0 = (mesh.coordinate k).getD d 0) (r : ℕ × ℕ) :
    (layout.area shape k').set a r = (layout.area shape k).set a r := by
  rw [area_eq, area_eq]
  apply List.ext_getElem
  · simp
  · intro b hb hb'
    by_cases hba : b = a
    · subst hba
      simp
    · have hdims : b < layout.dims.length := by
        simp only [List.length_set, List.length_zipWith] at hb
        omega
      rw [List.getElem_set_ne (Ne.symm hba), List.getElem_set_ne (Ne.symm hba),
        List.getElem_zipWith, List.getElem_zipWith]
      refine foldl_cutSlice_congr ?_
      intro d hd
      refine h b hdims hba d ?_
      rwa [List.getD_eq_getElem _ _ hdims]

/-! ### Pending reductions -/

theorem mem_pendingDims {d : ℕ} : d ∈ layout.pendingDims ↔
    d < mesh.shape.length ∧ (layout.pending.getD d none).isSome = true := by
  rw [pendingDims, List.mem_filter, List.mem_range]

/-- An accepted axis shards nothing. -/
theorem notMem_dims_of_not_isDevAxisApplyShard {axis : String} (haxis : axis ∈ mesh.aliasName)
    (h : layout.isDevAxisApplyShard axis = false) :
    mesh.aliasName.idxOf axis ∉ layout.dims.flatten := by
  rw [flatten_dims, usedDims_eq]
  intro hmem
  obtain ⟨b, hb, hdim⟩ := List.mem_map.1 hmem
  obtain ⟨hb, hne⟩ := List.mem_filter.1 hb
  have hvalid := layout.isTensorMap.axis_valid b hb
  have hidx := List.idxOf_lt_length_iff.2 haxis
  have hlen := mesh.length_aliasName
  rw [decide_eq_true_eq] at hne
  have hsame : b = axisOf mesh.aliasName axis := by
    unfold meshDim at hdim
    unfold axisOf
    omega
  rw [isDevAxisApplyShard, decide_eq_false_iff_not, ← hsame] at h
  exact h hb

/-- What a run of `set_partial_by_dev_axis` changes. -/
theorem foldlM_setPartialByDevAxis {layout layout' : Layout mesh} {axes : List String}
    {op : PartialOp} (haxes : ∀ axis ∈ axes, axis ∈ mesh.aliasName)
    (hlen : layout.pending.length = mesh.shape.length)
    (h : axes.foldlM (fun layout axis => layout.setPartialByDevAxis axis op) layout =
      some layout') :
    layout'.aliasTensorMap = layout.aliasTensorMap ∧
      (∀ axis ∈ axes, mesh.aliasName.idxOf axis ∉ layout.dims.flatten) ∧
      ∀ d, d ∈ layout'.pendingDims ↔
        d ∈ layout.pendingDims ∨ d ∈ axes.map mesh.aliasName.idxOf := by
  induction axes generalizing layout with
  | nil =>
    cases h
    simp
  | cons axis axes ih =>
    rw [List.foldlM_cons, setPartialByDevAxis] at h
    split_ifs at h with happly
    · cases h
    obtain ⟨haxis, hrest⟩ := List.forall_mem_cons.1 haxes
    obtain ⟨halias, hfree, hpending⟩ := ih hrest (by simpa using hlen) h
    have hidx : mesh.aliasName.idxOf axis < mesh.shape.length := by
      rw [← mesh.length_aliasName]
      exact List.idxOf_lt_length_iff.2 haxis
    refine ⟨halias, List.forall_mem_cons.2 ⟨?_, hfree⟩, ?_⟩
    · exact layout.notMem_dims_of_not_isDevAxisApplyShard haxis (by simpa using happly)
    · intro d
      rw [hpending, mem_pendingDims, mem_pendingDims, List.map_cons, List.mem_cons, ← or_assoc]
      refine or_congr_left ?_
      by_cases hd : d = mesh.aliasName.idxOf axis
      · subst hd
        simp [List.getD_eq_getElem?_getD, hlen, hidx]
      · simp [List.getD_eq_getElem?_getD, List.getElem?_set_ne (Ne.symm hd), hd]

theorem call_ok {entries : List AliasEntry} {layout : Layout mesh}
    (h : call mesh entries = .ok layout) : layout.aliasTensorMap = entries ∧
      layout.pending = List.replicate mesh.shape.length none := by
  unfold call at h
  split at h
  · cases h
    exact ⟨rfl, rfl⟩
  · cases h

end Layout

end HyperParallel.DTensor

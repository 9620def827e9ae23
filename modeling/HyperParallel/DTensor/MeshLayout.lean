import HyperParallel.Lib.Intervals
import HyperParallel.Lib.Tensor

/-!
# Mesh layouts

`_MeshLayout` and `_FlatLayout` of `core/dtensor/_mesh_layout.py`.

* `MeshLayout`: a nested shape and stride of one structure;
* `MeshLayout.coalesce`, `collapse`: adjacent axes merged;
* `MeshLayout.remapToNumpy`: the rank arrays of a layout;
* `enumerateOffsets_coalesce`, `allRanksFromZero_collapse`: merging keeps the offsets.
-/

open Intervals

namespace HyperParallel.DTensor

/-- A nested shape with a nested stride of the same structure. -/
inductive MeshLayout where
  | axis (size stride : ℕ)
  | tuple (axes : List MeshLayout)

/-- A canonical layout of one axis, `_FlatLayout`: sizes with their strides. -/
structure FlatLayout where
  axes : List (ℕ × ℕ)

/-- `np.ndindex` -/
def ndindex : List ℕ → List (List ℕ)
  | [] => [[]]
  | n :: shape => (List.range n).flatMap fun i => (ndindex shape).map (i :: ·)

/-- `all_ranks_from_zero` of a flat layout -/
def FlatLayout.allRanksFromZero (layout : FlatLayout) : List ℕ :=
  if layout.axes = [] then [0]
  else (ndindex (layout.axes.map Prod.fst)).map fun coord =>
    (List.zipWith (· * ·) coord (layout.axes.map Prod.snd)).sum

/-- A text as an entry of a tuple. -/
def pyTuple : List String → String
  | [x] => "(" ++ x ++ ",)"
  | l => "(" ++ ", ".intercalate l ++ ")"

namespace MeshLayout

mutual

/-- `_enumerate_offsets` -/
def enumerateOffsets : MeshLayout → List ℕ
  | axis size stride => (List.range size).map fun i => i * stride
  | tuple axes => enumerateAxes axes [0]

/-- The offsets of the axes of a tuple, added to those before. -/
def enumerateAxes : List MeshLayout → List ℕ → List ℕ
  | [], offsets => offsets
  | sub :: axes, offsets => enumerateAxes axes
      (offsets.flatMap fun base => (enumerateOffsets sub).map fun dimOffset => base + dimOffset)

end

mutual

/-- `_flatten_inttuple` of the shape and of the stride -/
def flatten : MeshLayout → List (ℕ × ℕ)
  | axis size stride => [(size, stride)]
  | tuple axes => flattenAxes axes

def flattenAxes : List MeshLayout → List (ℕ × ℕ)
  | [] => []
  | sub :: axes => flatten sub ++ flattenAxes axes

end

mutual

/-- A nested tuple of one field of the axes. -/
def reprTuple (field : ℕ × ℕ → ℕ) : MeshLayout → String
  | axis size stride => toString (field (size, stride))
  | tuple axes => pyTuple (reprAxes field axes)

def reprAxes (field : ℕ × ℕ → ℕ) : List MeshLayout → List String
  | [] => []
  | sub :: axes => reprTuple field sub :: reprAxes field axes

end

/-- `__repr__` -/
def repr (layout : MeshLayout) : String :=
  "_MeshLayout(shape=" ++ layout.reprTuple Prod.fst ++ ", stride=" ++ layout.reprTuple Prod.snd ++
    ")"

def numel (layout : MeshLayout) : ℕ := (layout.flatten.map Prod.fst).prod

/-- `__len__` -/
def length : MeshLayout → ℕ
  | axis _ _ => 1
  | tuple axes => axes.length

def topLevelSizes : MeshLayout → List ℕ
  | axis size _ => [size]
  | tuple axes => axes.map numel

def checkNonOverlap (layout : MeshLayout) : Prop :=
  layout.enumerateOffsets.length = layout.enumerateOffsets.toFinset.card

instance (layout : MeshLayout) : Decidable layout.checkNonOverlap := by
  unfold checkNonOverlap
  infer_instance

/-- A tuple of layouts, without the tuple around a single one. -/
def ofAxes : List MeshLayout → MeshLayout
  | [sub] => sub
  | axes => tuple axes

/-- A scalar axis is merged with the one before where that one steps over it. -/
def merge (merged : List MeshLayout) (sub : MeshLayout) : List MeshLayout :=
  match merged.getLast?, sub with
  | some (axis n s), axis size stride =>
    if s = stride * size then merged.dropLast ++ [axis (n * size) stride] else merged ++ [sub]
  | _, _ => merged ++ [sub]

mutual

def coalesce : MeshLayout → MeshLayout
  | axis size stride => axis size stride
  | tuple axes => ofAxes ((coalesceAxes axes).foldl merge [])

def coalesceAxes : List MeshLayout → List MeshLayout
  | [] => []
  | sub :: axes => coalesce sub :: coalesceAxes axes

end

/-- An axis in `_canonicalize_axis`. -/
def canonicalize (coalesced : List (ℕ × ℕ)) (axis : ℕ × ℕ) : List (ℕ × ℕ) :=
  match coalesced.getLast? with
  | some last =>
    if last.2 = axis.2 * axis.1 then coalesced.dropLast ++ [(last.1 * axis.1, axis.2)]
    else coalesced ++ [axis]
  | none => coalesced ++ [axis]

def collapse (layout : MeshLayout) : FlatLayout :=
  ⟨(layout.flatten.filter (·.1 ≠ 1)).foldl canonicalize []⟩

/-- `nest` -/
def nest (layout : MeshLayout) : MeshLayout :=
  if layout.length = 1 then layout else tuple [layout]

/-- The groups so far, and the indices in them. -/
structure RemapState where
  groups : List (List ℕ)
  used : Finset ℕ

/-- An anchor in `remap_to_numpy`. -/
def remapStep (worldSize : ℕ) (baseOffsets : List ℕ) (state : RemapState) (anchor : ℕ) :
    RemapState :=
  let group := baseOffsets.map fun offset => anchor + offset
  if anchor ∈ state.used then state
  else if ∃ index ∈ group, worldSize ≤ index then state
  else if ∃ index ∈ group, index ∈ state.used then state
  else ⟨state.groups ++ [group], state.used ∪ group.toFinset⟩

/-- Arrays of one shape, row-major. -/
structure Remapped where
  shape : List ℕ
  arrays : List (List ℕ)

def remapToNumpy (layout : MeshLayout) (rankMap : List ℕ) : Except String Remapped :=
  let worldSize := rankMap.length
  let baseOffsets := layout.enumerateOffsets
  if baseOffsets = [] then .error "Cannot remap an empty layout."
  else
    let state := (List.range worldSize).foldl (remapStep worldSize baseOffsets) ⟨[], ∅⟩
    if state.used.card ≠ worldSize then
      .error ("Layout " ++ layout.repr ++
        " does not form a full partition over rank_map with world size " ++ toString worldSize ++
        ".")
    else .ok ⟨layout.topLevelSizes, state.groups.map fun group =>
      group.map fun index => rankMap.getD index 0⟩

/-! ### Offsets -/

/-- The offsets of a list of axes, row-major. -/
def offsets : List (ℕ × ℕ) → List ℕ
  | [] => [0]
  | (n, s) :: axes => (List.range n).flatMap fun i => (offsets axes).map fun o => i * s + o

variable {axes axes' : List (ℕ × ℕ)} {n m s t : ℕ}

theorem offsets_append : offsets (axes ++ axes') =
    (offsets axes).flatMap fun a => (offsets axes').map fun o => a + o := by
  induction axes with
  | nil => simp [offsets]
  | cons axis axes ih =>
    simp only [List.cons_append, offsets, ih, List.flatMap_assoc, List.map_flatMap, List.map_map,
      List.flatMap_map]
    refine List.flatMap_congr fun i _ => List.flatMap_congr fun a _ => List.map_congr_left ?_
    intro o _
    exact (Nat.add_assoc _ _ _).symm

theorem offsets_singleton : offsets [(n, s)] = (List.range n).map fun i => i * s := by
  simp [offsets, ← List.map_eq_flatMap]

/-- An axis that steps over the next one is one axis with it. -/
theorem offsets_merge : offsets ((n, t * m) :: (m, t) :: axes) = offsets ((n * m, t) :: axes) := by
  simp only [offsets, List.map_flatMap, List.map_map]
  rw [← flatMap_range_flatMap]
  refine List.flatMap_congr fun i _ => List.flatMap_congr fun j _ => List.map_congr_left ?_
  intro o _
  simp only [Function.comp]
  rw [Nat.add_mul, Nat.mul_assoc, Nat.mul_comm m t, Nat.add_assoc]

theorem offsets_one : offsets ((1, s) :: axes) = offsets axes := by
  simp [offsets]

theorem zero_mem_offsets (h : ∀ axis ∈ axes, 0 < axis.1) : 0 ∈ offsets axes := by
  induction axes with
  | nil => simp [offsets]
  | cons axis axes ih =>
    have hrest := ih fun a ha => h a (List.mem_cons_of_mem _ ha)
    simp only [offsets, List.mem_flatMap, List.mem_range, List.mem_map]
    exact ⟨0, h axis (List.mem_cons_self ..), 0, hrest, by rw [Nat.zero_mul]⟩

mutual

theorem enumerateOffsets_eq (layout : MeshLayout) :
    layout.enumerateOffsets = offsets layout.flatten := by
  cases layout with
  | axis size stride => rw [enumerateOffsets, flatten, offsets_singleton]
  | tuple axes =>
    rw [enumerateOffsets, flatten, enumerateAxes_eq]
    simp

theorem enumerateAxes_eq (subs : List MeshLayout) (before : List ℕ) : enumerateAxes subs before =
    before.flatMap fun base => (offsets (flattenAxes subs)).map fun o => base + o := by
  cases subs with
  | nil => simp [enumerateAxes, flattenAxes, offsets]
  | cons sub subs =>
    rw [enumerateAxes, flattenAxes, enumerateAxes_eq subs, enumerateOffsets_eq sub, offsets_append]
    simp only [List.flatMap_assoc, List.map_flatMap, List.map_map, List.flatMap_map]
    refine List.flatMap_congr fun i _ => List.flatMap_congr fun a _ => List.map_congr_left ?_
    intro o _
    exact Nat.add_assoc _ _ _

end

/-! ### Merged axes -/

@[simp] theorem flattenAxes_append (subs subs' : List MeshLayout) :
    flattenAxes (subs ++ subs') = flattenAxes subs ++ flattenAxes subs' := by
  induction subs with
  | nil => rfl
  | cons sub subs ih =>
    rw [List.cons_append, flattenAxes, flattenAxes, ih, List.append_assoc]

theorem flatten_ofAxes (subs : List MeshLayout) : (ofAxes subs).flatten = flattenAxes subs := by
  match subs with
  | [] => rfl
  | [sub] => simp [ofAxes, flattenAxes]
  | sub :: sub' :: subs => rfl

theorem offsets_append_congr {l l' : List (ℕ × ℕ)} (h : offsets l = offsets l') :
    offsets (axes ++ l) = offsets (axes ++ l') := by
  rw [offsets_append, offsets_append, h]

theorem offsets_merge_axes (merged : List MeshLayout) (sub : MeshLayout) :
    offsets (flattenAxes (merge merged sub)) = offsets (flattenAxes merged ++ sub.flatten) := by
  have happend : flattenAxes (merged ++ [sub]) = flattenAxes merged ++ sub.flatten := by
    rw [flattenAxes_append, flattenAxes, flattenAxes, List.append_nil]
  unfold merge
  split
  case h_1 n s size stride hlast =>
    split_ifs with hs
    · obtain ⟨init, rfl⟩ : ∃ init, merged = init ++ [axis n s] :=
        ⟨_, (List.dropLast_append_getLast? _ hlast).symm⟩
      rw [List.dropLast_concat, flattenAxes_append, flattenAxes_append, List.append_assoc, hs]
      simp only [flattenAxes, flatten, List.append_nil]
      exact offsets_append_congr offsets_merge.symm
    · rw [happend]
  case h_2 => rw [happend]

theorem offsets_foldl_merge (subs merged : List MeshLayout) :
    offsets (flattenAxes (subs.foldl merge merged)) =
      offsets (flattenAxes merged ++ flattenAxes subs) := by
  induction subs generalizing merged with
  | nil => rw [List.foldl_nil, flattenAxes, List.append_nil]
  | cons sub subs ih =>
    rw [List.foldl_cons, ih, offsets_append, offsets_merge_axes, ← offsets_append, flattenAxes,
      List.append_assoc]

mutual

theorem offsets_coalesce (layout : MeshLayout) :
    offsets layout.coalesce.flatten = offsets layout.flatten := by
  cases layout with
  | axis size stride => rw [coalesce]
  | tuple axes =>
    rw [coalesce, flatten_ofAxes, offsets_foldl_merge, flattenAxes, List.nil_append,
      offsets_coalesceAxes, flatten]

theorem offsets_coalesceAxes (subs : List MeshLayout) :
    offsets (flattenAxes (coalesceAxes subs)) = offsets (flattenAxes subs) := by
  cases subs with
  | nil => rw [coalesceAxes]
  | cons sub subs =>
    rw [coalesceAxes, flattenAxes, flattenAxes, offsets_append, offsets_coalesce sub,
      offsets_coalesceAxes subs, ← offsets_append]

end

/-- Coalescing does not change the offsets. -/
theorem enumerateOffsets_coalesce (layout : MeshLayout) :
    layout.coalesce.enumerateOffsets = layout.enumerateOffsets := by
  rw [enumerateOffsets_eq, enumerateOffsets_eq, offsets_coalesce]

theorem offsets_canonicalize (coalesced : List (ℕ × ℕ)) (axis : ℕ × ℕ) :
    offsets (canonicalize coalesced axis) = offsets (coalesced ++ [axis]) := by
  unfold canonicalize
  split
  case h_1 last hlast =>
    split_ifs with hs
    · obtain ⟨init, rfl⟩ : ∃ init, coalesced = init ++ [last] :=
        ⟨_, (List.dropLast_append_getLast? _ hlast).symm⟩
      rw [List.dropLast_concat, List.append_assoc]
      obtain ⟨n, s⟩ := last
      obtain ⟨m, t⟩ := axis
      dsimp only at hs
      rw [hs]
      exact offsets_append_congr offsets_merge.symm
    · rfl
  case h_2 => rfl

theorem offsets_foldl_canonicalize (axes coalesced : List (ℕ × ℕ)) :
    offsets (axes.foldl canonicalize coalesced) = offsets (coalesced ++ axes) := by
  induction axes generalizing coalesced with
  | nil => rw [List.foldl_nil, List.append_nil]
  | cons axis axes ih =>
    rw [List.foldl_cons, ih, offsets_append, offsets_canonicalize, ← offsets_append,
      List.append_assoc, List.singleton_append]

theorem offsets_filter_one : offsets (axes.filter (·.1 ≠ 1)) = offsets axes := by
  induction axes with
  | nil => rfl
  | cons axis axes ih =>
    obtain ⟨n, s⟩ := axis
    rw [List.filter_cons]
    split_ifs with h
    · rw [offsets, offsets, ih]
    · have hn : n = 1 := by simpa using h
      rw [hn, offsets_one, ih]

theorem offsets_eq_ndindex : offsets axes = (ndindex (axes.map Prod.fst)).map fun coord =>
    (List.zipWith (· * ·) coord (axes.map Prod.snd)).sum := by
  induction axes with
  | nil => rfl
  | cons axis axes ih =>
    simp only [offsets, ih, ndindex, List.map_cons, List.map_flatMap, List.map_map]
    rfl

theorem allRanksFromZero_eq (layout : FlatLayout) :
    layout.allRanksFromZero = offsets layout.axes := by
  unfold FlatLayout.allRanksFromZero
  split_ifs with h
  · rw [h, offsets]
  · rw [offsets_eq_ndindex]

/-- Nor does collapsing. -/
theorem allRanksFromZero_collapse (layout : MeshLayout) :
    layout.collapse.allRanksFromZero = layout.enumerateOffsets := by
  rw [allRanksFromZero_eq, collapse, offsets_foldl_canonicalize, List.nil_append,
    offsets_filter_one, enumerateOffsets_eq]

end MeshLayout

end HyperParallel.DTensor

import HyperParallel.DTensor.MeshLayout
import Mathlib.Tactic.Ring

/-!
# Slices of a mesh

`DeviceMesh._get_slice_mesh_layout` and `_create_flatten_mesh` of `core/dtensor/device_mesh.py`,
with the rank arrays of the layouts that they make.

* `RootMesh`, `MeshDim`: a mesh of all ranks, its dimensions and those flattened together;
* `offsets_spec`: the offsets of some dimensions, seen from the coordinates;
* `Tiling.covers`: the greedy choice of anchors finds the tiling;
* `remapToNumpy_sliceLayout`: the arrays of a slice.
-/

open MixedRadix

namespace HyperParallel.DTensor

open MeshLayout

/-- `_contiguous_strides` -/
def contiguousStrides : List ℕ → List ℕ
  | [] => []
  | [_] => [1]
  | _ :: n :: shape =>
    (contiguousStrides (n :: shape)).headD 1 * n :: contiguousStrides (n :: shape)

/-- A mesh of all its ranks, in any order. -/
structure RootMesh where
  shape : List ℕ
  rankMap : List ℕ
  meshDimNames : List String
  shape_pos : ∀ n ∈ shape, 0 < n
  length_rankMap : rankMap.length = shape.prod
  nodup_rankMap : rankMap.Nodup
  length_meshDimNames : meshDimNames.length = shape.length

/-- A dimension of a mesh: one of its own, or dimensions that were flattened together. -/
inductive MeshDim where
  | dim (d : ℕ)
  | flattened (dims : List MeshDim)

namespace MeshDim

mutual

/-- The dimensions of the mesh in it, in their order. -/
def rootDims : MeshDim → List ℕ
  | dim d => [d]
  | flattened dims => allRootDims dims

def allRootDims : List MeshDim → List ℕ
  | [] => []
  | sub :: dims => rootDims sub ++ allRootDims dims

end

/-- The layout in `_create_flatten_mesh`. -/
def flattenLayout (layout : MeshLayout) : MeshLayout :=
  let flattened := layout.coalesce
  if 1 < flattened.length then flattened.nest else flattened

mutual

/-- `_layout` of a view with this dimension only -/
def layout (shape : List ℕ) : MeshDim → MeshLayout
  | dim d => .axis (shape.getD d 0) ((contiguousStrides shape).getD d 0)
  | flattened dims => flattenLayout (ofAxes (layouts shape dims))

def layouts (shape : List ℕ) : List MeshDim → List MeshLayout
  | [] => []
  | sub :: dims => layout shape sub :: layouts shape dims

end

/-- The layout of a slice. -/
def sliceLayout (shape : List ℕ) (dims : List MeshDim) : MeshLayout := ofAxes (layouts shape dims)

end MeshDim

namespace RootMesh

/-- The names, as they are printed. -/
def pyNames (names : List String) : List String := names.map fun name => "'" ++ name ++ "'"

/-- The strides of the sliced layouts, the last one first. -/
def checkStrides (names : List String) : List MeshLayout → ℤ → Except String Unit
  | [], _ => .ok ()
  | .tuple _ :: _, _ =>
    .error "Currently, this only allows slicing out a contiguous flattened dim."
  | .axis _ stride :: layouts, preStride =>
    if (stride : ℤ) < preStride then
      .error ("Invalid mesh_dim_names " ++ pyTuple (pyNames names) ++ " specified. " ++
        "Mesh dim indices should be in ascending order.")
    else checkStrides names layouts stride

variable (mesh : RootMesh) (flattenMapping : List (String × MeshDim))

/-- The dimension of a name. -/
def dimOf (name : String) : MeshDim :=
  if name ∈ mesh.meshDimNames then .dim (mesh.meshDimNames.idxOf name)
  else (flattenMapping.lookup name).getD (.flattened [])

/-- `_get_slice_mesh_layout` -/
def getSliceMeshLayout (names : List String) : Except String MeshLayout := do
  let validDimNames := mesh.meshDimNames ++ flattenMapping.map Prod.fst
  if ¬ ∀ name ∈ names, name ∈ validDimNames then
    .error ("Invalid mesh_dim_names " ++ pyTuple (pyNames names) ++ " specified. " ++
      "Valid mesh_dim_names are [" ++ ", ".intercalate (pyNames validDimNames) ++ "].")
  if (∀ name ∈ names, name ∈ mesh.meshDimNames) ∧
      ¬ (names.map mesh.meshDimNames.idxOf).Pairwise (· ≤ ·) then
    .error ("sub_mesh_dim_names " ++ pyTuple (pyNames names) ++ " must follow the order of " ++
      "original mesh_dim_names " ++ pyTuple (pyNames mesh.meshDimNames))
  let dims := names.map (mesh.dimOf flattenMapping)
  checkStrides names (MeshDim.layouts mesh.shape dims).reverse (-1)
  let layout := MeshDim.sliceLayout mesh.shape dims
  if ¬ layout.checkNonOverlap then
    .error ("Slicing overlapping dim_names " ++ pyTuple (pyNames names) ++ " is not allowed.")
  return layout

/-- The coordinate of a rank. -/
def coordinate (r d : ℕ) : ℕ := (digits mesh.shape (mesh.rankMap.idxOf r)).getD d 0

end RootMesh

/-! ### Positions -/

section Positions

variable {shape c dims : List ℕ} {p q d x : ℕ}

theorem contiguousStrides_cons (n : ℕ) (shape : List ℕ) :
    contiguousStrides (n :: shape) = shape.prod :: contiguousStrides shape := by
  induction shape generalizing n with
  | nil => rfl
  | cons m shape ih =>
    rw [contiguousStrides, ih, List.headD_cons, List.prod_cons, Nat.mul_comm]

/-- An axis of the mesh, with its stride. -/
def rootAxis (shape : List ℕ) (d : ℕ) : ℕ × ℕ :=
  (shape.getD d 0, (contiguousStrides shape).getD d 0)

theorem valid_set (h : Valid shape c) (hx : x < shape.getD d 0) : Valid shape (c.set d x) := by
  induction h generalizing d with
  | nil => exact .nil
  | cons hi hrest ih =>
    cases d with
    | zero => exact .cons hx hrest
    | succ d => exact .cons hi (ih hx)

/-- A digit that is zero adds its stride for each step. -/
theorem ofDigits_set (h : Valid shape c) (h0 : c.getD d 0 = 0) (hx : x < shape.getD d 0) :
    ofDigits shape (c.set d x) = ofDigits shape c + x * (rootAxis shape d).2 := by
  induction h generalizing d with
  | nil => simp at hx
  | @cons i n c shape hi hrest ih =>
    cases d with
    | zero =>
      rw [List.getD_cons_zero] at h0 hx
      rw [List.set_cons_zero, ofDigits, ofDigits, h0, Nat.mod_eq_of_lt hx, Nat.zero_mod,
        rootAxis, contiguousStrides_cons]
      simp only [List.getD_cons_zero]
      ring
    | succ d =>
      rw [List.getD_cons_succ] at h0 hx
      rw [List.set_cons_succ, ofDigits, ofDigits, ih h0 hx, rootAxis, rootAxis,
        contiguousStrides_cons]
      simp only [List.getD_cons_succ, Nat.add_assoc]

variable (hshape : ∀ n ∈ shape, 0 < n)
include hshape

theorem digits_add_stride (hp : p < shape.prod) (h0 : (digits shape p).getD d 0 = 0)
    (hx : x < shape.getD d 0) : p + x * (rootAxis shape d).2 < shape.prod ∧
      digits shape (p + x * (rootAxis shape d).2) = (digits shape p).set d x := by
  have hvalid : Valid shape (digits shape p) := digits_lt hshape
  have heq := ofDigits_set hvalid h0 hx
  rw [ofDigits_digits, Nat.mod_eq_of_lt hp] at heq
  rw [← heq]
  exact ⟨ofDigits_lt (valid_set hvalid hx), digits_ofDigits (valid_set hvalid hx)⟩

theorem getD_digits_lt (hd : d < shape.length) : (digits shape p).getD d 0 < shape.getD d 0 := by
  have hvalid : Valid shape (digits shape p) := digits_lt hshape
  have h := List.Forall₂.get hvalid (i := d) (by rwa [length_digits]) hd
  rwa [List.getD_eq_getElem _ _ (by rwa [length_digits]), List.getD_eq_getElem _ _ hd]

omit hshape in
theorem eq_of_digits (hp : p < shape.prod) (hq : q < shape.prod)
    (h : ∀ d < shape.length, (digits shape p).getD d 0 = (digits shape q).getD d 0) : p = q := by
  have heq : digits shape p = digits shape q := by
    refine List.ext_getElem (by rw [length_digits, length_digits]) fun d hd hd' => ?_
    rw [← List.getD_eq_getElem _ 0 hd, ← List.getD_eq_getElem _ 0 hd']
    exact h d (length_digits ▸ hd)
  have hofDigits := congrArg (ofDigits shape) heq
  rwa [ofDigits_digits, ofDigits_digits, Nat.mod_eq_of_lt hp, Nat.mod_eq_of_lt hq] at hofDigits

/-- From a position with zeros at some dimensions, the offsets of these run through their
coordinates in row-major order and keep the others. -/
theorem offsets_spec (hdims : ∀ d ∈ dims, d < shape.length) (hnodup : dims.Nodup)
    (hp : p < shape.prod) (h0 : ∀ d ∈ dims, (digits shape p).getD d 0 = 0) :
    (∀ o ∈ offsets (dims.map (rootAxis shape)), p + o < shape.prod ∧
        ∀ e ∉ dims, (digits shape (p + o)).getD e 0 = (digits shape p).getD e 0) ∧
      (offsets (dims.map (rootAxis shape))).map (fun o => dims.map fun d =>
          (digits shape (p + o)).getD d 0) = ndindex (dims.map fun d => shape.getD d 0) := by
  induction dims generalizing p with
  | nil => exact ⟨by simpa [offsets] using hp, rfl⟩
  | cons d dims ih =>
    obtain ⟨hd, hnodup⟩ := List.nodup_cons.1 hnodup
    have hlength := hdims d (List.mem_cons_self ..)
    have hstep : ∀ x < shape.getD d 0,
        (digits shape (p + x * (rootAxis shape d).2)).getD d 0 = x ∧
        (∀ e, e ≠ d → (digits shape (p + x * (rootAxis shape d).2)).getD e 0 =
          (digits shape p).getD e 0) ∧
        (∀ o ∈ offsets (dims.map (rootAxis shape)), p + x * (rootAxis shape d).2 + o < shape.prod ∧
          ∀ e ∉ dims, (digits shape (p + x * (rootAxis shape d).2 + o)).getD e 0 =
            (digits shape (p + x * (rootAxis shape d).2)).getD e 0) ∧
        (offsets (dims.map (rootAxis shape))).map (fun o => dims.map fun d' =>
          (digits shape (p + x * (rootAxis shape d).2 + o)).getD d' 0) =
            ndindex (dims.map fun d => shape.getD d 0) := by
      intro x hx
      obtain ⟨hlt, hdigits⟩ := digits_add_stride hshape hp (h0 d (List.mem_cons_self ..)) hx
      have hother : ∀ e, e ≠ d → (digits shape (p + x * (rootAxis shape d).2)).getD e 0 =
          (digits shape p).getD e 0 := by
        intro e he
        rw [hdigits, getD_set_of_ne he.symm]
      refine ⟨?_, hother, ih (fun e he => hdims e (List.mem_cons_of_mem _ he)) hnodup hlt ?_⟩
      · rw [hdigits, getD_set_self (by rwa [length_digits])]
      · intro e he
        rw [hother e fun h => hd (h ▸ he)]
        exact h0 e (List.mem_cons_of_mem _ he)
    constructor
    · intro o ho
      simp only [List.map_cons, offsets, List.mem_flatMap, List.mem_range, List.mem_map] at ho
      obtain ⟨x, hx, o, ho, rfl⟩ := ho
      obtain ⟨-, hother, hrest, -⟩ := hstep x hx
      rw [← Nat.add_assoc]
      refine ⟨(hrest o ho).1, fun e he => ?_⟩
      obtain ⟨hne, he⟩ := not_or.1 (mt List.mem_cons.2 he)
      rw [(hrest o ho).2 e he, hother e hne]
    · simp only [List.map_cons, offsets, ndindex, List.map_flatMap, List.map_map]
      refine List.flatMap_congr fun x hx => ?_
      obtain ⟨hself, -, hrest, hcoords⟩ := hstep x (List.mem_range.1 hx)
      rw [← hcoords, List.map_map]
      refine List.map_congr_left fun o ho => ?_
      simp only [Function.comp]
      change (digits shape (p + (x * (rootAxis shape d).2 + o))).getD d 0 ::
        dims.map (fun d' => (digits shape (p + (x * (rootAxis shape d).2 + o))).getD d' 0) = _
      rw [← Nat.add_assoc, (hrest o ho).2 d hd, hself]

/-- The position with another digit. -/
theorem exists_set (hp : x < shape.getD d 0) (p : ℕ) :
    ∃ q < shape.prod, digits shape q = (digits shape p).set d x :=
  ⟨_, ofDigits_lt (valid_set (digits_lt hshape) hp),
    digits_ofDigits (valid_set (digits_lt hshape) hp)⟩

/-- The position with zeros at some dimensions. -/
theorem exists_anchor (hdims : ∀ d ∈ dims, d < shape.length) (hp : p < shape.prod) :
    ∃ a < shape.prod, (∀ d ∈ dims, (digits shape a).getD d 0 = 0) ∧
      ∀ e ∉ dims, (digits shape a).getD e 0 = (digits shape p).getD e 0 := by
  induction dims with
  | nil => exact ⟨p, hp, by simp, fun e _ => rfl⟩
  | cons d dims ih =>
    obtain ⟨a, ha, hzero, hother⟩ := ih fun e he => hdims e (List.mem_cons_of_mem _ he)
    have hd := hdims d (List.mem_cons_self ..)
    have hpos : 0 < shape.getD d 0 := Nat.zero_lt_of_lt (getD_digits_lt hshape hd (p := p))
    obtain ⟨b, hb, hdigits⟩ := exists_set hshape hpos a
    refine ⟨b, hb, fun e he => ?_, fun e he => ?_⟩
    · by_cases hed : e = d
      · rw [hdigits, hed, getD_set_self (by rwa [length_digits])]
      · rw [hdigits, getD_set_of_ne (Ne.symm hed)]
        exact hzero e ((List.mem_cons.1 he).resolve_left hed)
    · obtain ⟨hne, he⟩ := not_or.1 (mt List.mem_cons.2 he)
      rw [hdigits, getD_set_of_ne (Ne.symm hne), hother e he]

omit hshape in
theorem mem_ndindex {sizes idx : List ℕ} : idx ∈ ndindex sizes ↔ Valid sizes idx := by
  induction sizes generalizing idx with
  | nil =>
    rw [ndindex, List.mem_singleton]
    exact ⟨fun h => h ▸ .nil, fun h => by cases h; rfl⟩
  | cons n sizes ih =>
    simp only [ndindex, List.mem_flatMap, List.mem_range, List.mem_map, ih]
    constructor
    · rintro ⟨i, hi, idx, hidx, rfl⟩
      exact .cons hi hidx
    · intro h
      cases h with
      | cons hi hidx => exact ⟨_, hi, _, hidx, rfl⟩

omit hshape in
theorem nodup_ndindex (sizes : List ℕ) : (ndindex sizes).Nodup := by
  induction sizes with
  | nil => exact List.nodup_singleton _
  | cons n sizes ih =>
    rw [ndindex, List.nodup_flatMap]
    refine ⟨fun i _ => ih.map fun _ _ h => (List.cons.inj h).2, ?_⟩
    refine List.nodup_range.imp fun hne => ?_
    refine List.disjoint_left.2 fun idx hi hj => ?_
    obtain ⟨_, _, rfl⟩ := List.mem_map.1 hi
    obtain ⟨_, _, h⟩ := List.mem_map.1 hj
    exact hne (List.cons.inj h).1.symm

/-- The positions that agree with an anchor off the dimensions are those at an offset. -/
theorem mem_offsets (hdims : ∀ d ∈ dims, d < shape.length) (hnodup : dims.Nodup)
    (hp : p < shape.prod) (h0 : ∀ d ∈ dims, (digits shape p).getD d 0 = 0) (hq : q < shape.prod)
    (hagree : ∀ e < shape.length, e ∉ dims →
      (digits shape q).getD e 0 = (digits shape p).getD e 0) :
    ∃ o ∈ offsets (dims.map (rootAxis shape)), p + o = q := by
  obtain ⟨hkeep, hcoords⟩ := offsets_spec hshape hdims hnodup hp h0
  have hvalid : (dims.map fun d => (digits shape q).getD d 0) ∈
      ndindex (dims.map fun d => shape.getD d 0) := by
    rw [mem_ndindex, Valid, List.forall₂_map_left_iff, List.forall₂_map_right_iff]
    exact List.forall₂_same.2 fun d hd => getD_digits_lt hshape (hdims d hd)
  rw [← hcoords] at hvalid
  obtain ⟨o, ho, hsame⟩ := List.mem_map.1 hvalid
  refine ⟨o, ho, eq_of_digits (hkeep o ho).1 hq fun e he => ?_⟩
  by_cases hmem : e ∈ dims
  · exact List.map_inj_left.1 hsame e hmem
  · rw [(hkeep o ho).2 e hmem, hagree e he hmem]

end Positions

/-! ### Anchors -/

section Anchors

variable {world : ℕ} {baseOffsets : List ℕ} {isAnchor : ℕ → Prop} [DecidablePred isAnchor]

/-- Every position is at an offset from just one anchor. -/
structure Tiling (world : ℕ) (baseOffsets : List ℕ) (isAnchor : ℕ → Prop) : Prop where
  zero_mem : 0 ∈ baseOffsets
  lt : ∀ a < world, isAnchor a → ∀ o ∈ baseOffsets, a + o < world
  cover : ∀ p < world, ∃ a < world, isAnchor a ∧ ∃ o ∈ baseOffsets, a + o = p
  unique : ∀ a < world, isAnchor a → ∀ b < world, isAnchor b →
    ∀ o ∈ baseOffsets, ∀ o' ∈ baseOffsets, a + o = b + o' → a = b

/-- The tiles of the anchors below a position, and the indices in them. -/
structure Covers (baseOffsets : List ℕ) (isAnchor : ℕ → Prop) [DecidablePred isAnchor] (t : ℕ)
    (state : RemapState) : Prop where
  groups : state.groups = ((List.range t).filter fun a => isAnchor a).map fun a =>
    baseOffsets.map fun o => a + o
  used : ∀ p, p ∈ state.used ↔ ∃ a < t, isAnchor a ∧ ∃ o ∈ baseOffsets, a + o = p

/-- The greedy choice takes the anchors of the tiling. -/
theorem Covers.step (h : Tiling world baseOffsets isAnchor) {t : ℕ} (ht : t < world)
    {state : RemapState} (hcovers : Covers baseOffsets isAnchor t state) :
    Covers baseOffsets isAnchor (t + 1) (remapStep world baseOffsets state t) := by
  have hused : t ∈ state.used ↔ ¬ isAnchor t := by
    rw [hcovers.used]
    constructor
    · rintro ⟨a, hat, ha, o, ho, heq⟩ hanchor
      have := h.unique a (hat.trans ht) ha t ht hanchor o ho 0 h.zero_mem (by omega)
      omega
    · intro hnot
      obtain ⟨a, _, ha, o, ho, heq⟩ := h.cover t ht
      refine ⟨a, lt_of_le_of_ne (by omega) ?_, ha, o, ho, heq⟩
      rintro rfl
      exact hnot ha
  unfold remapStep
  by_cases hanchor : isAnchor t
  · have hlt : ¬ ∃ index ∈ baseOffsets.map (fun offset => t + offset), world ≤ index := by
      rintro ⟨index, hindex, hle⟩
      obtain ⟨o, ho, rfl⟩ := List.mem_map.1 hindex
      exact absurd (h.lt t ht hanchor o ho) (Nat.not_lt.2 hle)
    have hfree : ¬ ∃ index ∈ baseOffsets.map (fun offset => t + offset), index ∈ state.used := by
      rintro ⟨index, hindex, hmem⟩
      obtain ⟨o, ho, rfl⟩ := List.mem_map.1 hindex
      obtain ⟨a, hat, ha, o', ho', heq⟩ := (hcovers.used _).1 hmem
      have := h.unique a (hat.trans ht) ha t ht hanchor o' ho' o ho heq
      omega
    simp only [hused, hanchor, not_true_eq_false, if_false, if_neg hlt, if_neg hfree]
    refine ⟨?_, fun p => ?_⟩
    · simp only [hcovers.groups, List.range_succ, List.filter_append, List.map_append,
        List.filter_singleton, hanchor, decide_true, List.map_singleton, cond_true]
    · rw [Finset.mem_union, hcovers.used, List.mem_toFinset, List.mem_map]
      constructor
      · rintro (⟨a, hat, ha, hp⟩ | hp)
        · exact ⟨a, Nat.lt_succ_of_lt hat, ha, hp⟩
        · exact ⟨t, Nat.lt_succ_self t, hanchor, hp⟩
      · rintro ⟨a, hat, ha, hp⟩
        rcases Nat.lt_succ_iff_lt_or_eq.1 hat with hlt | rfl
        · exact .inl ⟨a, hlt, ha, hp⟩
        · exact .inr hp
  · rw [if_pos (hused.2 hanchor)]
    refine ⟨?_, fun p => (hcovers.used p).trans ?_⟩
    · simp only [hcovers.groups, List.range_succ, List.filter_append, List.filter_singleton,
        hanchor, decide_false, cond_false, List.append_nil]
    · constructor
      · rintro ⟨a, hat, hp⟩
        exact ⟨a, Nat.lt_succ_of_lt hat, hp⟩
      · rintro ⟨a, hat, ha, hp⟩
        rcases Nat.lt_succ_iff_lt_or_eq.1 hat with hlt | rfl
        · exact ⟨a, hlt, ha, hp⟩
        · exact absurd ha hanchor

theorem Tiling.covers (h : Tiling world baseOffsets isAnchor) {t : ℕ} (ht : t ≤ world) :
    Covers baseOffsets isAnchor t
      ((List.range t).foldl (remapStep world baseOffsets) ⟨[], ∅⟩) := by
  induction t with
  | zero => exact ⟨rfl, by simp⟩
  | succ t ih =>
    rw [List.range_succ, List.foldl_append]
    exact Covers.step h ht (ih (Nat.le_of_succ_le ht))

theorem Tiling.card_used (h : Tiling world baseOffsets isAnchor) :
    ((List.range world).foldl (remapStep world baseOffsets) ⟨[], ∅⟩).used.card = world := by
  have heq : ((List.range world).foldl (remapStep world baseOffsets) ⟨[], ∅⟩).used =
      Finset.range world := by
    ext p
    rw [(h.covers le_rfl).used, Finset.mem_range]
    constructor
    · rintro ⟨a, hlt, ha, o, ho, rfl⟩
      exact h.lt a hlt ha o ho
    · exact h.cover p
  rw [heq, Finset.card_range]

/-- The tiles hold every position once. -/
theorem Tiling.perm (h : Tiling world baseOffsets isAnchor) (hnodup : baseOffsets.Nodup) :
    ((((List.range world).filter fun a => isAnchor a).map fun a =>
      baseOffsets.map fun o => a + o).flatten).Perm (List.range world) := by
  refine (List.perm_ext_iff_of_nodup ?_ List.nodup_range).2 fun p => ?_
  · rw [List.nodup_flatten]
    refine ⟨fun l hl => ?_, ?_⟩
    · obtain ⟨a, -, rfl⟩ := List.mem_map.1 hl
      exact hnodup.map fun _ _ => Nat.add_left_cancel
    · rw [List.pairwise_map]
      refine (List.nodup_range.filter _).imp_of_mem fun ha hb hne => ?_
      simp only [List.mem_filter, List.mem_range, decide_eq_true_eq] at ha hb
      rw [List.disjoint_left]
      intro p hp hp'
      obtain ⟨o, ho, rfl⟩ := List.mem_map.1 hp
      obtain ⟨o', ho', heq⟩ := List.mem_map.1 hp'
      exact hne (h.unique _ ha.1 ha.2 _ hb.1 hb.2 o ho o' ho' heq.symm)
  · simp only [List.mem_flatten, List.mem_map, List.mem_filter, List.mem_range,
      decide_eq_true_eq]
    constructor
    · rintro ⟨_, ⟨a, ⟨hlt, ha⟩, rfl⟩, hp⟩
      obtain ⟨o, ho, rfl⟩ := List.mem_map.1 hp
      exact h.lt a hlt ha o ho
    · intro hp
      obtain ⟨a, hlt, ha, o, ho, rfl⟩ := h.cover p hp
      exact ⟨_, ⟨a, ⟨hlt, ha⟩, rfl⟩, List.mem_map_of_mem ho⟩

end Anchors

/-- The positions with zeros at some dimensions tile the mesh. -/
theorem tiling_of_dims {shape dims : List ℕ} (hshape : ∀ n ∈ shape, 0 < n)
    (hdims : ∀ d ∈ dims, d < shape.length) (hnodup : dims.Nodup) :
    Tiling shape.prod (offsets (dims.map (rootAxis shape)))
      fun a => ∀ d ∈ dims, (digits shape a).getD d 0 = 0 where
  zero_mem := by
    refine zero_mem_offsets fun axis haxis => ?_
    obtain ⟨d, hd, rfl⟩ := List.mem_map.1 haxis
    exact Nat.zero_lt_of_lt (getD_digits_lt hshape (hdims d hd) (p := 0))
  lt a ha h0 o ho := ((offsets_spec hshape hdims hnodup ha h0).1 o ho).1
  cover p hp := by
    obtain ⟨a, ha, hzero, hother⟩ := exists_anchor hshape hdims hp
    exact ⟨a, ha, hzero, mem_offsets hshape hdims hnodup ha hzero hp
      fun e _ he => (hother e he).symm⟩
  unique a ha hzero b hb hzero' o ho o' ho' heq := by
    refine eq_of_digits ha hb fun e _ => ?_
    by_cases he : e ∈ dims
    · rw [hzero e he, hzero' e he]
    · rw [← ((offsets_spec hshape hdims hnodup ha hzero).1 o ho).2 e he, heq,
        ((offsets_spec hshape hdims hnodup hb hzero').1 o' ho').2 e he]

/-! ### Layouts of slices -/

namespace MeshDim

variable (shape : List ℕ)

theorem flatten_nest (layout : MeshLayout) : layout.nest.flatten = layout.flatten := by
  unfold nest
  split_ifs
  · rfl
  · rw [flatten, flattenAxes, flattenAxes, List.append_nil]

theorem offsets_flattenLayout (layout : MeshLayout) :
    offsets (flattenLayout layout).flatten = offsets layout.flatten := by
  unfold flattenLayout
  dsimp only
  split_ifs
  · rw [flatten_nest, offsets_coalesce]
  · exact offsets_coalesce layout

mutual

theorem offsets_layout (sub : MeshDim) :
    offsets (layout shape sub).flatten = offsets (sub.rootDims.map (rootAxis shape)) := by
  cases sub with
  | dim d => rfl
  | flattened dims =>
    rw [layout, offsets_flattenLayout, flatten_ofAxes, offsets_layouts dims, rootDims]

theorem offsets_layouts (dims : List MeshDim) : offsets (flattenAxes (layouts shape dims)) =
    offsets ((allRootDims dims).map (rootAxis shape)) := by
  cases dims with
  | nil => rfl
  | cons sub dims =>
    rw [layouts, flattenAxes, allRootDims, List.map_append, offsets_append, offsets_layout sub,
      offsets_layouts dims, ← offsets_append]

end

theorem enumerateOffsets_sliceLayout (dims : List MeshDim) :
    (sliceLayout shape dims).enumerateOffsets =
      offsets ((allRootDims dims).map (rootAxis shape)) := by
  rw [enumerateOffsets_eq, sliceLayout, flatten_ofAxes, offsets_layouts]

end MeshDim

namespace RootMesh

open MeshDim

variable (mesh : RootMesh)

theorem getSliceMeshLayout_eq {flattenMapping : List (String × MeshDim)} {names : List String}
    {layout : MeshLayout} (h : mesh.getSliceMeshLayout flattenMapping names = .ok layout) :
    layout = sliceLayout mesh.shape (names.map (mesh.dimOf flattenMapping)) := by
  simp only [getSliceMeshLayout, bind, Except.bind] at h
  generalize checkStrides names _ (-1) = strides at h
  split_ifs at h
  · cases strides with
    | error message => cases h
    | ok =>
      cases h
      rfl
  · cases strides with
    | error message => cases h
    | ok => cases h

theorem coordinate_getD {p : ℕ} (hp : p < mesh.shape.prod) (d : ℕ) :
    mesh.coordinate (mesh.rankMap.getD p 0) d = (digits mesh.shape p).getD d 0 := by
  have hlt : p < mesh.rankMap.length := mesh.length_rankMap ▸ hp
  rw [coordinate, List.getD_eq_getElem _ _ hlt, mesh.nodup_rankMap.idxOf_getElem p hlt]

theorem exists_position {r : ℕ} (hr : r ∈ mesh.rankMap) :
    ∃ p < mesh.shape.prod, mesh.rankMap.getD p 0 = r := by
  obtain ⟨p, hp, rfl⟩ := List.getElem_of_mem hr
  exact ⟨p, mesh.length_rankMap ▸ hp, List.getD_eq_getElem _ _ hp⟩

theorem getD_mem {p : ℕ} (hp : p < mesh.shape.prod) : mesh.rankMap.getD p 0 ∈ mesh.rankMap := by
  have hlt : p < mesh.rankMap.length := mesh.length_rankMap ▸ hp
  rw [List.getD_eq_getElem _ _ hlt]
  exact List.getElem_mem hlt

/-- The arrays of a slice: the ranks at the offsets from each anchor. -/
def sliceArrays (dims : List ℕ) : List (List ℕ) :=
  ((List.range mesh.shape.prod).filter fun a =>
    ∀ d ∈ dims, (digits mesh.shape a).getD d 0 = 0).map fun a =>
      (offsets (dims.map (rootAxis mesh.shape))).map fun o => mesh.rankMap.getD (a + o) 0

theorem remapToNumpy_eq {dims : List MeshDim}
    (hdims : ∀ d ∈ allRootDims dims, d < mesh.shape.length) (hnodup : (allRootDims dims).Nodup) :
    (sliceLayout mesh.shape dims).remapToNumpy mesh.rankMap =
      .ok ⟨(sliceLayout mesh.shape dims).topLevelSizes, mesh.sliceArrays (allRootDims dims)⟩ := by
  have htiling := tiling_of_dims mesh.shape_pos hdims hnodup
  have hbase : offsets ((allRootDims dims).map (rootAxis mesh.shape)) ≠ [] :=
    List.ne_nil_of_mem htiling.zero_mem
  rw [remapToNumpy]
  simp only [enumerateOffsets_sliceLayout, if_neg hbase, mesh.length_rankMap, htiling.card_used,
    ne_eq, not_true_eq_false, if_false, (htiling.covers le_rfl).groups, sliceArrays, List.map_map,
    Function.comp_def]

variable {dims : List ℕ} (hdims : ∀ d ∈ dims, d < mesh.shape.length) (hnodup : dims.Nodup)
include hdims hnodup

/-- The arrays hold every rank once. -/
theorem sliceArrays_perm : (mesh.sliceArrays dims).flatten.Perm mesh.rankMap := by
  have htiling := tiling_of_dims mesh.shape_pos hdims hnodup
  have hbase : (offsets (dims.map (rootAxis mesh.shape))).Nodup := by
    obtain ⟨a, ha, h0, -⟩ := exists_anchor mesh.shape_pos hdims
      (Nat.zero_lt_of_lt (ofDigits_lt (digits_lt mesh.shape_pos (k := 0))))
    refine List.Nodup.of_map (fun o => dims.map fun d => (digits mesh.shape (a + o)).getD d 0) ?_
    rw [(offsets_spec mesh.shape_pos hdims hnodup ha h0).2]
    exact nodup_ndindex _
  have hperm := (htiling.perm hbase).map fun p => mesh.rankMap.getD p 0
  have hranks : (List.range mesh.shape.prod).map (fun p => mesh.rankMap.getD p 0) =
      mesh.rankMap := by
    rw [← mesh.length_rankMap, Intervals.map_getD_range]
  rw [hranks, List.map_flatten, List.map_map] at hperm
  simpa only [sliceArrays, Function.comp_def, List.map_map] using hperm

theorem mem_sliceArrays {array : List ℕ} (harray : array ∈ mesh.sliceArrays dims) :
    ∃ a < mesh.shape.prod, (∀ d ∈ dims, (digits mesh.shape a).getD d 0 = 0) ∧
      (∀ o ∈ offsets (dims.map (rootAxis mesh.shape)), a + o < mesh.shape.prod ∧
        ∀ e ∉ dims, (digits mesh.shape (a + o)).getD e 0 = (digits mesh.shape a).getD e 0) ∧
      (offsets (dims.map (rootAxis mesh.shape))).map (fun o => dims.map fun d =>
        (digits mesh.shape (a + o)).getD d 0) = ndindex (dims.map fun d => mesh.shape.getD d 0) ∧
      array = (offsets (dims.map (rootAxis mesh.shape))).map fun o =>
        mesh.rankMap.getD (a + o) 0 := by
  obtain ⟨a, ha, rfl⟩ := List.mem_map.1 harray
  simp only [List.mem_filter, List.mem_range, decide_eq_true_eq] at ha
  obtain ⟨hlt, h0⟩ := ha
  obtain ⟨hkeep, hcoords⟩ := offsets_spec mesh.shape_pos hdims hnodup hlt h0
  exact ⟨a, hlt, h0, hkeep, hcoords, rfl⟩

/-- An array holds the ranks that agree off the dimensions. -/
theorem mem_array_iff {array : List ℕ} (harray : array ∈ mesh.sliceArrays dims) {r : ℕ}
    (hr : r ∈ array) (r' : ℕ) : r' ∈ array ↔ r' ∈ mesh.rankMap ∧
      ∀ d < mesh.shape.length, d ∉ dims → mesh.coordinate r' d = mesh.coordinate r d := by
  obtain ⟨a, hlt, h0, hkeep, -, rfl⟩ := mesh.mem_sliceArrays hdims hnodup harray
  obtain ⟨o, ho, rfl⟩ := List.mem_map.1 hr
  have hsame : ∀ d ∉ dims, mesh.coordinate (mesh.rankMap.getD (a + o) 0) d =
      (digits mesh.shape a).getD d 0 := by
    intro d hd
    rw [mesh.coordinate_getD (hkeep o ho).1, (hkeep o ho).2 d hd]
  constructor
  · intro hr'
    obtain ⟨o', ho', rfl⟩ := List.mem_map.1 hr'
    refine ⟨mesh.getD_mem (hkeep o' ho').1, fun d _ hd => ?_⟩
    rw [hsame d hd, mesh.coordinate_getD (hkeep o' ho').1, (hkeep o' ho').2 d hd]
  · rintro ⟨hmem, hagree⟩
    obtain ⟨q, hq, rfl⟩ := mesh.exists_position hmem
    obtain ⟨o', ho', rfl⟩ := mem_offsets mesh.shape_pos hdims hnodup hlt h0 hq fun e he hed => by
      rw [← mesh.coordinate_getD hq, hagree e he hed, hsame e hed]
    exact List.mem_map_of_mem ho'

/-- It lists them row-major in the dimensions. -/
theorem map_coordinate {array : List ℕ} (harray : array ∈ mesh.sliceArrays dims) :
    array.map (fun r => dims.map (mesh.coordinate r)) =
      ndindex (dims.map fun d => mesh.shape.getD d 0) := by
  obtain ⟨a, -, -, hkeep, hcoords, rfl⟩ := mesh.mem_sliceArrays hdims hnodup harray
  rw [← hcoords, List.map_map]
  refine List.map_congr_left fun o ho => List.map_congr_left fun d _ => ?_
  exact mesh.coordinate_getD (hkeep o ho).1 d

omit hdims hnodup in
/-- The arrays of a slice partition the ranks of the mesh; each lists, row-major in the dimensions
of the slice, the ranks that agree on the others. -/
theorem remapToNumpy_sliceLayout (dims : List MeshDim)
    (hdims : ∀ d ∈ allRootDims dims, d < mesh.shape.length) (hnodup : (allRootDims dims).Nodup) :
    (∃ arrays, (sliceLayout mesh.shape dims).remapToNumpy mesh.rankMap =
        .ok ⟨(sliceLayout mesh.shape dims).topLevelSizes, arrays⟩ ∧
      arrays.flatten.Perm mesh.rankMap ∧
      ∀ array ∈ arrays, ∀ r ∈ array,
        (∀ r', r' ∈ array ↔ r' ∈ mesh.rankMap ∧ ∀ d < mesh.shape.length, d ∉ allRootDims dims →
          mesh.coordinate r' d = mesh.coordinate r d) ∧
        array.map (fun r' => (allRootDims dims).map (mesh.coordinate r')) =
          ndindex ((allRootDims dims).map fun d => mesh.shape.getD d 0)) ∧
    (∀ flattenMapping names layout, mesh.getSliceMeshLayout flattenMapping names = .ok layout →
      layout = sliceLayout mesh.shape (names.map (mesh.dimOf flattenMapping))) ∧
    ∀ layout : MeshLayout, layout.coalesce.enumerateOffsets = layout.enumerateOffsets ∧
      layout.collapse.allRanksFromZero = layout.enumerateOffsets := by
  refine ⟨?_, fun _ _ _ h => mesh.getSliceMeshLayout_eq h, fun layout =>
    ⟨enumerateOffsets_coalesce layout, allRanksFromZero_collapse layout⟩⟩
  refine ⟨mesh.sliceArrays (allRootDims dims), mesh.remapToNumpy_eq hdims hnodup,
    mesh.sliceArrays_perm hdims hnodup, fun array harray r hr => ⟨?_, ?_⟩⟩
  · exact mesh.mem_array_iff hdims hnodup harray hr
  · exact mesh.map_coordinate hdims hnodup harray

omit hdims hnodup in
/-- Eight ranks in reversed order, sliced along the last dimension and the other two together. -/
theorem remapToNumpy_sliceLayout_reversed : ∃ mesh : RootMesh, mesh.shape = [2, 2, 2] ∧
    ∃ arrays, (sliceLayout mesh.shape [.dim 2, .flattened [.dim 0, .dim 1]]).remapToNumpy
        mesh.rankMap = .ok ⟨[2, 4], arrays⟩ ∧ arrays.flatten.Perm mesh.rankMap := by
  let mesh : RootMesh := ⟨[2, 2, 2], [7, 6, 5, 4, 3, 2, 1, 0], ["pp", "dp", "tp"], by decide,
    by decide, by decide, by decide⟩
  obtain ⟨⟨arrays, hremap, hperm, -⟩, -⟩ := mesh.remapToNumpy_sliceLayout
    [.dim 2, .flattened [.dim 0, .dim 1]] (by decide) (by decide)
  exact ⟨mesh, rfl, arrays, hremap, hperm⟩

end RootMesh

end HyperParallel.DTensor

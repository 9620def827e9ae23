import HyperParallel.DTensor.Placement
import HyperParallel.Lib.ExceptList

/-!
# Tensor maps and placements, there and back

The placements of a tensor map list for every tensor dimension the mesh dimensions that shard it
from left to right (`dimMap_tensorMapToPlacement`), with the split factors of `ShardOrder`.  So
the way back succeeds exactly when no tensor dimension is cut in a zigzag, and then gives the
same slices (`roundTrips_iff`).
-/

namespace HyperParallel.DTensor

open ExceptList

variable {mesh : List ℕ} {before placements : List Placement} {tensorMap : List TensorMapping}
  {mapping : TensorMapping} {m d n : ℕ}

/-! ### The placement of a mesh dimension -/

theorem foldl_set_getD {β : Type*} {P : List (ℕ × β)} {init : List β} {default : β}
    (hP : (P.map Prod.fst).Nodup) (hm : m < init.length) :
    (P.foldl (fun l p => l.set p.1 p.2) init).getD m default =
      ((P.find? fun p => p.1 = m).map Prod.snd).getD (init.getD m default) := by
  induction P generalizing init with
  | nil => rfl
  | cons p P ih =>
    rw [List.map_cons, List.nodup_cons] at hP
    rw [List.foldl_cons, ih hP.2 (by simpa using hm), List.find?_cons]
    by_cases hpm : p.1 = m
    · subst hpm
      have hnone : P.find? (fun q => decide (q.1 = p.1)) = none :=
        List.find?_eq_none.2 fun q hq h =>
          hP.1 (List.mem_map.2 ⟨q, hq, by simpa using h⟩)
      simp [hnone, hm]
    · simp [hpm, List.getElem?_set_ne hpm]

/-- The assignments of `tensor_map_to_placement`, in the order in which they are made. -/
def assignments (mesh : List ℕ) (before : List Placement) (tensorMap : List TensorMapping) :
    List (ℕ × Placement) :=
  tensorMap.zipIdx.flatMap fun entry =>
    ((entry.1.meshDims mesh).insertionSort (· ≤ ·)).map fun meshIdx =>
      (meshIdx, shardPlacement entry.2 (computeExpectedSplitFactors mesh
        ((entry.1.meshDims mesh).insertionSort (· ≤ ·)) (entry.1.meshDims mesh) meshIdx)
        (unevenOn before meshIdx entry.2))

theorem tensorMapToPlacement_eq : tensorMapToPlacement mesh before tensorMap =
    (assignments mesh before tensorMap).foldl (fun l p => l.set p.1 p.2)
      (List.replicate mesh.length .replicate) := by
  rw [assignments, List.foldl_flatMap]
  simp only [List.foldl_map]
  rfl

theorem length_tensorMapToPlacement :
    (tensorMapToPlacement mesh before tensorMap).length = mesh.length := by
  rw [tensorMapToPlacement_eq]
  generalize assignments mesh before tensorMap = P
  suffices ∀ init : List Placement, (P.foldl (fun l p => l.set p.1 p.2) init).length = init.length by
    simpa using this (List.replicate mesh.length .replicate)
  induction P with
  | nil => simp
  | cons p P ih =>
    intro init
    rw [List.foldl_cons, ih, List.length_set]

theorem perm_assignments :
    ((assignments mesh before tensorMap).map Prod.fst).Perm (usedDims mesh tensorMap) := by
  rw [assignments, List.map_flatMap, usedDims]
  conv_rhs => rw [← List.zipIdx_map_fst 0 tensorMap, List.flatMap_map]
  refine List.Perm.flatMap_left _ fun entry _ => ?_
  simp only [List.map_map, Function.comp_def, List.map_id']
  exact List.perm_insertionSort _ _

/-- The placement of a mesh dimension that shards a tensor dimension. -/
theorem getD_tensorMapToPlacement (h : IsTensorMap mesh tensorMap)
    (hd : tensorMap[d]? = some mapping) (hm : m ∈ mapping.meshDims mesh) :
    (tensorMapToPlacement mesh before tensorMap).getD m .replicate = shardPlacement d
      (computeExpectedSplitFactors mesh ((mapping.meshDims mesh).insertionSort (· ≤ ·))
        (mapping.meshDims mesh) m) (unevenOn before m d) := by
  have hnodup : ((assignments mesh before tensorMap).map Prod.fst).Nodup :=
    perm_assignments.nodup_iff.2 (nodup_usedDims h)
  have hmem : m ∈ usedDims mesh tensorMap :=
    List.mem_flatMap.2 ⟨mapping, List.mem_of_getElem? hd, hm⟩
  have hassign : (m, shardPlacement d
      (computeExpectedSplitFactors mesh ((mapping.meshDims mesh).insertionSort (· ≤ ·))
        (mapping.meshDims mesh) m) (unevenOn before m d)) ∈ assignments mesh before tensorMap :=
    List.mem_flatMap.2 ⟨(mapping, d), List.mem_zipIdx_iff_getElem?.2 hd,
      List.mem_map.2 ⟨m, (List.mem_insertionSort _).2 hm, rfl⟩⟩
  rw [tensorMapToPlacement_eq, foldl_set_getD hnodup (by simpa using usedDims_lt h m hmem)]
  cases hfind : (assignments mesh before tensorMap).find? fun p => p.1 = m with
  | none =>
    have := List.find?_eq_none.1 hfind _ hassign
    simp at this
  | some p =>
    have hp : p.1 = m := by simpa using List.find?_some hfind
    have := List.inj_on_of_nodup_map hnodup (List.mem_of_find?_eq_some hfind) hassign hp
    rw [this]
    rfl

theorem getD_tensorMapToPlacement_of_notMem (h : IsTensorMap mesh tensorMap) (hlt : m < mesh.length)
    (hm : m ∉ usedDims mesh tensorMap) :
    (tensorMapToPlacement mesh before tensorMap).getD m .replicate = .replicate := by
  have hnodup : ((assignments mesh before tensorMap).map Prod.fst).Nodup :=
    perm_assignments.nodup_iff.2 (nodup_usedDims h)
  have hnone : (assignments mesh before tensorMap).find? (fun p => decide (p.1 = m)) = none :=
    List.find?_eq_none.2 fun p hp hpm => hm (perm_assignments.mem_iff.1
      (List.mem_map.2 ⟨p, hp, by simpa using hpm⟩))
  rw [tensorMapToPlacement_eq, foldl_set_getD hnodup (by simpa using hlt), hnone]
  simp

@[simp] theorem dim?_shardPlacement {factor : ℕ} {uneven : Bool} :
    (shardPlacement d factor uneven).dim? = some (d : ℤ) := by
  unfold shardPlacement
  split_ifs <;> rfl

theorem splitFactor_shardPlacement {factor : ℕ} {uneven : Bool} (h : 1 ≤ factor) :
    (shardPlacement d factor uneven).splitFactor = factor := by
  unfold shardPlacement
  split_ifs
  · rfl
  · simp only [Placement.splitFactor]
    omega

/-- Which tensor dimension a mesh dimension shards. -/
theorem dim?_iff (h : IsTensorMap mesh tensorMap) (hlt : m < mesh.length) :
    ((tensorMapToPlacement mesh before tensorMap).getD m .replicate).dim? = some (d : ℤ) ↔
      ∃ mapping, tensorMap[d]? = some mapping ∧ m ∈ mapping.meshDims mesh := by
  constructor
  · intro hdim
    by_cases hm : m ∈ usedDims mesh tensorMap
    · obtain ⟨mapping, hmem, hmm⟩ := List.mem_flatMap.1 hm
      obtain ⟨e, he⟩ := List.mem_iff_getElem?.1 hmem
      rw [getD_tensorMapToPlacement h he hmm, dim?_shardPlacement, Option.some.injEq,
        Nat.cast_inj] at hdim
      exact ⟨mapping, hdim ▸ he, hmm⟩
    · rw [getD_tensorMapToPlacement_of_notMem h hlt hm] at hdim
      cases hdim
  · rintro ⟨mapping, hd, hm⟩
    rw [getD_tensorMapToPlacement h hd hm, dim?_shardPlacement]

/-! ### The mesh dimensions of a tensor dimension -/

/-- One placement of `_build_dim_map_from_placements`. -/
def dimMapStep (dim : ℕ) (dims : List (List ℕ)) (entry : Placement × ℕ) :
    Except LayoutError (List (List ℕ)) :=
  match entry.1.dim? with
  | none => .ok dims
  | some shardDim =>
      if shardDim < -dim ∨ (dim : ℤ) ≤ shardDim then .error (.shardDimOutOfBounds shardDim dim)
      else
        let d := (if shardDim < 0 then shardDim + dim else shardDim).toNat
        .ok (dims.set d (dims.getD d [] ++ [entry.2]))

theorem dimMapStep_of_none {entry : Placement × ℕ} {dims : List (List ℕ)}
    (h : entry.1.dim? = none) : dimMapStep n dims entry = .ok dims := by
  simp only [dimMapStep, h]

theorem dimMapStep_of_some {entry : Placement × ℕ} {dims : List (List ℕ)}
    (h : entry.1.dim? = some (d : ℤ)) (hd : d < n) :
    dimMapStep n dims entry = .ok (dims.set d (dims.getD d [] ++ [entry.2])) := by
  have hin : ¬ ((d : ℤ) < -n ∨ (n : ℤ) ≤ d) := by omega
  have hpos : ¬ ((d : ℤ) < 0) := by omega
  simp only [dimMapStep, h, if_neg hin, if_neg hpos, Int.toNat_natCast]

theorem foldlM_dimMapStep {P : List (Placement × ℕ)} {dims : List (List ℕ)}
    (hdims : dims.length = n)
    (hP : ∀ p ∈ P, ∀ x, p.1.dim? = some x → ∃ d < n, x = (d : ℤ)) :
    P.foldlM (dimMapStep n) dims = .ok ((List.range n).map fun d =>
      dims.getD d [] ++ (P.filter fun p => p.1.dim? = some (d : ℤ)).map Prod.snd) := by
  induction P generalizing dims with
  | nil =>
    refine congrArg Except.ok (List.ext_getElem (by simp [hdims]) fun i h1 h2 => ?_)
    simp [List.getElem?_eq_getElem h1]
  | cons p P ih =>
    have hrest := fun q hq => hP q (List.mem_cons_of_mem _ hq)
    rw [List.foldlM_cons]
    cases hp : p.1.dim? with
    | none =>
      rw [dimMapStep_of_none hp]
      refine (ih hdims hrest).trans ?_
      simp [hp]
    | some x =>
      obtain ⟨e, he, rfl⟩ := hP p List.mem_cons_self x hp
      rw [dimMapStep_of_some hp he]
      refine (ih (by simpa using hdims) hrest).trans (congrArg Except.ok ?_)
      refine List.map_congr_left fun d hd => ?_
      rw [List.filter_cons, hp]
      by_cases hed : e = d
      · subst hed
        simp [List.getElem?_set_self (hdims ▸ he : e < dims.length)]
      · have : ¬ ((e : ℤ) = d) := by omega
        simp [this, List.getElem?_set_ne hed]

theorem eq_insertionSort {l l' : List ℕ} (hl : l.Pairwise (· < ·)) (hl' : l'.Nodup)
    (h : ∀ a, a ∈ l ↔ a ∈ l') : l = l'.insertionSort (· ≤ ·) := by
  have hperm : l.Perm (l'.insertionSort (· ≤ ·)) :=
    ((List.perm_ext_iff_of_nodup (hl.imp fun h => h.ne) hl').2 h).trans
      (List.perm_insertionSort _ _).symm
  exact hperm.eq_of_pairwise (fun a b _ _ h1 h2 => le_antisymm h1 h2)
    (hl.imp fun h => h.le) (List.pairwise_insertionSort _ _)

theorem nodup_meshDims (h : IsTensorMap mesh tensorMap) (hmem : mapping ∈ tensorMap) :
    (mapping.meshDims mesh).Nodup :=
  (List.nodup_flatMap.1 (nodup_usedDims h)).1 mapping hmem

theorem meshDims_lt (h : IsTensorMap mesh tensorMap) (hmem : mapping ∈ tensorMap)
    (hm : m ∈ mapping.meshDims mesh) : m < mesh.length :=
  usedDims_lt h m (List.mem_flatMap.2 ⟨mapping, hmem, hm⟩)

/-- The placements of a tensor map list the mesh dimensions of every tensor dimension from left to
right. -/
theorem dimMap_tensorMapToPlacement (h : IsTensorMap mesh tensorMap) :
    dimMap tensorMap.length (tensorMapToPlacement mesh before tensorMap) =
      .ok (tensorMap.map fun mapping => (mapping.meshDims mesh).insertionSort (· ≤ ·)) := by
  have hlen : (tensorMapToPlacement mesh before tensorMap).length = mesh.length :=
    length_tensorMapToPlacement
  have hzip : ∀ p ∈ (tensorMapToPlacement mesh before tensorMap).zipIdx, p.2 < mesh.length ∧
      p.1 = (tensorMapToPlacement mesh before tensorMap).getD p.2 .replicate := by
    intro p hp
    have hget := List.mem_zipIdx_iff_getElem?.1 hp
    obtain ⟨hlt, -⟩ := List.getElem?_eq_some_iff.1 hget
    exact ⟨hlen ▸ hlt, by rw [List.getD_eq_getElem?_getD, hget]; rfl⟩
  have hdim : ∀ m < mesh.length, ∀ x,
      ((tensorMapToPlacement mesh before tensorMap).getD m .replicate).dim? = some x →
        ∃ d < tensorMap.length, x = (d : ℤ) := by
    intro m hlt x hx
    by_cases hm : m ∈ usedDims mesh tensorMap
    · obtain ⟨mapping, hmem, hmm⟩ := List.mem_flatMap.1 hm
      obtain ⟨e, he⟩ := List.mem_iff_getElem?.1 hmem
      rw [getD_tensorMapToPlacement h he hmm, dim?_shardPlacement, Option.some.injEq] at hx
      exact ⟨e, (List.getElem?_eq_some_iff.1 he).1, hx.symm⟩
    · rw [getD_tensorMapToPlacement_of_notMem h hlt hm] at hx
      cases hx
  refine (foldlM_dimMapStep (by simp) fun p hp x hx => ?_).trans (congrArg Except.ok ?_)
  · rw [(hzip p hp).2] at hx
    exact hdim p.2 (hzip p hp).1 x hx
  · refine List.ext_getElem (by simp) fun d h1 h2 => ?_
    have hd : d < tensorMap.length := by simpa using h1
    have hget : tensorMap[d]? = some tensorMap[d] := List.getElem?_eq_getElem hd
    simp only [List.getElem_map, List.getElem_range]
    rw [List.getD_replicate _ hd, List.nil_append]
    refine eq_insertionSort ?_ (nodup_meshDims h (List.getElem_mem hd)) fun m => ?_
    · refine List.pairwise_map.2 (List.Pairwise.filter _ ?_)
      rw [← List.pairwise_map (f := Prod.snd), List.zipIdx_map_snd]
      exact List.pairwise_lt_range'
    · constructor
      · intro hm
        obtain ⟨p, hp, rfl⟩ := List.mem_map.1 hm
        obtain ⟨hp, hpd⟩ := List.mem_filter.1 hp
        rw [decide_eq_true_eq, (hzip p hp).2, dim?_iff h (hzip p hp).1] at hpd
        obtain ⟨mapping, hmap, hmm⟩ := hpd
        rw [hget, Option.some.injEq] at hmap
        exact hmap ▸ hmm
      · intro hm
        have hlt := meshDims_lt h (List.getElem_mem hd) hm
        refine List.mem_map.2 ⟨((tensorMapToPlacement mesh before tensorMap).getD m .replicate, m),
          List.mem_filter.2 ⟨List.mem_zipIdx_iff_getElem?.2 ?_, ?_⟩, rfl⟩
        · rw [List.getD_eq_getElem _ _ (hlen ▸ hlt)]
          exact List.getElem?_eq_getElem _
        · rw [decide_eq_true_eq, dim?_iff h hlt]
          exact ⟨_, hget, hm⟩

/-! ### The split factors -/

theorem effectiveShardAxes_congr {f g : ℕ → ℕ} {axes : List ℕ} (h : ∀ a ∈ axes, f a = g a) :
    effectiveShardAxes f axes = effectiveShardAxes g axes := by
  have := List.map_insertionSort (r := fun a b => f a ≤ f b) (s := fun a b => g a ≤ g b) id axes
    fun a ha b hb => by rw [h a ha, h b hb]; rfl
  simpa [effectiveShardAxes] using this

/-- The mesh dimensions that shard one tensor dimension. -/
def shardOrder (hmesh : ∀ n ∈ mesh, 0 < n) (h : IsTensorMap mesh tensorMap)
    (hmem : mapping ∈ tensorMap) : ShardOrder mesh where
  axes := (mapping.meshDims mesh).insertionSort (· ≤ ·)
  order := mapping.meshDims mesh
  perm := (List.perm_insertionSort _ _).symm
  sorted := by
    have hnodup := (List.perm_insertionSort (· ≤ ·) (mapping.meshDims mesh)).nodup_iff.2
      (nodup_meshDims h hmem)
    exact ((List.pairwise_insertionSort (· ≤ ·) (mapping.meshDims mesh)).and hnodup).imp
      fun h => lt_of_le_of_ne h.1 h.2
  pos a ha := by
    have hlt := meshDims_lt h hmem ((List.mem_insertionSort _).1 ha)
    rw [List.getD_eq_getElem _ _ hlt]
    exact hmesh _ (List.getElem_mem hlt)

/-- The placements carry the factors of the tensor map. -/
theorem placementFactor_tensorMapToPlacement (before : List Placement)
    (hmesh : ∀ n ∈ mesh, 0 < n)
    (h : IsTensorMap mesh tensorMap) (hmem : mapping ∈ tensorMap)
    (hm : m ∈ (shardOrder hmesh h hmem).axes) :
    placementFactor (tensorMapToPlacement mesh before tensorMap) m =
      (shardOrder hmesh h hmem).factor m := by
  obtain ⟨d, hd⟩ := List.mem_iff_getElem?.1 hmem
  rw [placementFactor, getD_tensorMapToPlacement h hd ((List.mem_insertionSort _).1 hm)]
  exact splitFactor_shardPlacement (shardOrder hmesh h hmem).one_le_factor

theorem effectiveShardAxes_tensorMapToPlacement (before : List Placement)
    (hmesh : ∀ n ∈ mesh, 0 < n)
    (h : IsTensorMap mesh tensorMap) (hmem : mapping ∈ tensorMap) :
    effectiveShardAxes (placementFactor (tensorMapToPlacement mesh before tensorMap))
      (shardOrder hmesh h hmem).axes = (shardOrder hmesh h hmem).effective :=
  effectiveShardAxes_congr fun _ ha => placementFactor_tensorMapToPlacement before hmesh h hmem ha

/-- The split factors of a tensor dimension are accepted unless it is cut in a zigzag. -/
theorem validateSplitFactors_iff (before : List Placement)
    (hmesh : ∀ n ∈ mesh, 0 < n) (h : IsTensorMap mesh tensorMap)
    (hmem : mapping ∈ tensorMap) :
    validateSplitFactors mesh (tensorMapToPlacement mesh before tensorMap)
      ((mapping.meshDims mesh).insertionSort (· ≤ ·)) = .ok () ↔
        ¬ Zigzag mesh (mapping.meshDims mesh) := by
  refine Iff.trans ?_ (shardOrder hmesh h hmem).factors_effective_iff
  rw [← effectiveShardAxes_tensorMapToPlacement before hmesh h hmem,
    validateSplitFactors, forM_eq_ok]
  refine forall_congr' fun m => imp_congr_right fun hm => ?_
  rw [← placementFactor_tensorMapToPlacement before hmesh h hmem hm]
  exact ite_error_eq_ok.trans (not_not.trans eq_comm)

/-! ### The slices of the tensor map that comes back -/

section Recovered

variable {uneven coord axes fullShape : List ℕ} {slice : ℕ × ℕ}

theorem meshDims_convertDims (h : ∀ a ∈ axes, a < mesh.length) :
    (convertDims mesh axes).meshDims mesh = axes := by
  have hdim : ∀ a ∈ axes, meshDim mesh (mesh.length - 1 - a) = a := by
    intro a ha
    have := h a ha
    simp only [meshDim]
    omega
  have hvalid : ∀ a ∈ axes, (mesh.length - 1 - a : ℤ) ≠ -1 := by
    intro a ha
    have := h a ha
    omega
  have hmany : (((axes.map fun a : ℕ => (mesh.length - 1 - a : ℤ)).filter (· ≠ -1)).map
      (meshDim mesh)) = axes := by
    rw [List.filter_eq_self.2, List.map_map]
    · exact (List.map_congr_left hdim).trans (List.map_id axes)
    · intro x hx
      obtain ⟨a, ha, rfl⟩ := List.mem_map.1 hx
      simpa using hvalid a ha
  match axes, hmany with
  | [], _ => rfl
  | [a], hmany => exact hmany
  | a :: b :: l, hmany => exact hmany

/-- A mesh dimension of one device leaves the slice as it is. -/
theorem cutSlice_of_one (hc : IsCoordinate mesh coord) (hm : m < mesh.length)
    (hsize : mesh.getD m 1 = 1) (hs : slice.1 ≤ slice.2) :
    cutSlice mesh uneven coord slice m = slice := by
  have hcoord : coord.getD m 0 = 0 := by
    have := hc m hm
    omega
  have hchunk : ∀ size, chunkRange mesh uneven m size 0 = (0, size) := by
    intro size
    unfold chunkRange
    rw [hsize]
    split_ifs
    · simp [inferCeilChunkRange]
    · simp [inferBalancedChunkRange, Nat.mod_one]
  rw [cutSlice, hcoord, hchunk]
  refine Prod.ext (by simp) ?_
  simp only
  omega

theorem foldl_cutSlice_filter (hc : IsCoordinate mesh coord) (hpos : ∀ n ∈ mesh, 0 < n)
    (h : ∀ a ∈ axes, a < mesh.length) (hs : slice.1 ≤ slice.2) :
    (axes.filter fun a => 1 < mesh.getD a 1).foldl (cutSlice mesh uneven coord) slice =
      axes.foldl (cutSlice mesh uneven coord) slice := by
  induction axes generalizing slice with
  | nil => rfl
  | cons a axes ih =>
    have ha := h a List.mem_cons_self
    have hrest := fun b hb => h b (List.mem_cons_of_mem _ hb)
    rw [List.filter_cons, List.foldl_cons]
    by_cases hsize : 1 < mesh.getD a 1
    · rw [if_pos (decide_eq_true hsize), List.foldl_cons]
      exact ih hrest (cutSlice_bounds uneven slice hc ha hs).2.1
    · have hone : mesh.getD a 1 = 1 := by
        have := hpos _ (List.getElem_mem ha)
        rw [List.getD_eq_getElem _ _ ha] at hsize ⊢
        omega
      rw [if_neg (by simpa using hsize), cutSlice_of_one hc ha hone hs]
      exact ih hrest hs

/-- Tensor maps that cut every tensor dimension alike have the same slices. -/
theorem sliceArea_map_congr {f : TensorMapping → TensorMapping}
    (h : ∀ mapping ∈ tensorMap, ∀ size,
      ((f mapping).meshDims mesh).foldl (cutSlice mesh uneven coord) (0, size) =
        (mapping.meshDims mesh).foldl (cutSlice mesh uneven coord) (0, size)) :
    sliceArea mesh uneven coord fullShape (tensorMap.map f) =
      sliceArea mesh uneven coord fullShape tensorMap := by
  induction fullShape generalizing tensorMap with
  | nil => rfl
  | cons size fullShape ih =>
    cases tensorMap with
    | nil => rfl
    | cons mapping tensorMap =>
      rw [sliceArea, sliceArea, List.map_cons, List.zipWith_cons_cons, List.zipWith_cons_cons,
        h mapping List.mem_cons_self]
      exact congrArg _ (ih fun mapping hm => h mapping (List.mem_cons_of_mem _ hm))

end Recovered

/-! ### The way back -/

/-- The tensor map that comes back from the placements. -/
def recoveredMapping (mesh : List ℕ) (placements : List Placement) (mapping : TensorMapping) :
    TensorMapping :=
  let shardAxes := (mapping.meshDims mesh).insertionSort (· ≤ ·)
  convertDims mesh (if shardAxes.length ≤ 1 then shardAxes
    else effectiveShardAxes (placementFactor placements) shardAxes)

theorem placementToTensorMap_eq (hmesh : ∀ n ∈ mesh, 0 < n) (h : IsTensorMap mesh tensorMap)
    (hz : ∀ mapping ∈ tensorMap, ¬ Zigzag mesh (mapping.meshDims mesh)) :
    placementToTensorMap mesh tensorMap.length (tensorMapToPlacement mesh before tensorMap) =
      .ok (tensorMap.map (recoveredMapping mesh (tensorMapToPlacement mesh before tensorMap))) := by
  unfold placementToTensorMap
  split_ifs with hlen
  · rw [List.length_eq_zero_iff.1 hlen]
    rfl
  · have hok : (tensorMap.map fun mapping => (mapping.meshDims mesh).insertionSort (· ≤ ·)).forM
        (validateSplitFactors mesh (tensorMapToPlacement mesh before tensorMap)) = .ok () := by
      refine forM_eq_ok.2 fun axes haxes => ?_
      obtain ⟨mapping, hmem, rfl⟩ := List.mem_map.1 haxes
      exact (validateSplitFactors_iff before hmesh h hmem).2 (hz mapping hmem)
    rw [dimMap_tensorMapToPlacement h]
    simp only [bind, Except.bind, hok, pure, Except.pure, List.map_map]
    rfl

theorem not_zigzag_of_placementToTensorMap (hmesh : ∀ n ∈ mesh, 0 < n)
    (h : IsTensorMap mesh tensorMap) {recovered : List TensorMapping}
    (hok : placementToTensorMap mesh tensorMap.length (tensorMapToPlacement mesh before tensorMap) =
      .ok recovered) (hmem : mapping ∈ tensorMap) : ¬ Zigzag mesh (mapping.meshDims mesh) := by
  have hlen : tensorMap.length ≠ 0 := (List.length_pos_of_mem hmem).ne'
  rw [placementToTensorMap, if_neg hlen, dimMap_tensorMapToPlacement h] at hok
  cases hvalid : (tensorMap.map fun mapping =>
      (mapping.meshDims mesh).insertionSort (· ≤ ·)).forM
      (validateSplitFactors mesh (tensorMapToPlacement mesh before tensorMap)) with
  | error e =>
    simp only [bind, Except.bind, hvalid] at hok
    cases hok
  | ok u =>
    refine (validateSplitFactors_iff before hmesh h hmem).1 ?_
    exact forM_eq_ok.1 hvalid _ (List.mem_map.2 ⟨mapping, hmem, rfl⟩)

/-- The mapping that comes back cuts as the one it comes from. -/
theorem foldl_recoveredMapping {uneven coord : List ℕ} {size : ℕ} (hmesh : ∀ n ∈ mesh, 0 < n)
    (h : IsTensorMap mesh tensorMap) (hmem : mapping ∈ tensorMap) (hc : IsCoordinate mesh coord)
    (hz : ¬ Zigzag mesh (mapping.meshDims mesh)) :
    ((recoveredMapping mesh (tensorMapToPlacement mesh before tensorMap) mapping).meshDims
        mesh).foldl (cutSlice mesh uneven coord) (0, size) =
      (mapping.meshDims mesh).foldl (cutSlice mesh uneven coord) (0, size) := by
  have hlt : ∀ a ∈ (mapping.meshDims mesh).insertionSort (· ≤ ·), a < mesh.length := fun a ha =>
    meshDims_lt h hmem ((List.mem_insertionSort _).1 ha)
  have hlt' : ∀ a ∈ (shardOrder hmesh h hmem).effective, a < mesh.length := fun a ha =>
    hlt a ((shardOrder hmesh h hmem).perm_effective.mem_iff.1 ha)
  have heff : effectiveShardAxes (placementFactor (tensorMapToPlacement mesh before tensorMap))
      ((mapping.meshDims mesh).insertionSort (· ≤ ·)) = (shardOrder hmesh h hmem).effective :=
    effectiveShardAxes_tensorMapToPlacement before hmesh h hmem
  simp only [recoveredMapping]
  split_ifs with hone
  · rw [meshDims_convertDims hlt]
    have hlen : (mapping.meshDims mesh).length ≤ 1 := by simpa using hone
    match hdims : mapping.meshDims mesh, hlen with
    | [], _ => rfl
    | [a], _ => rfl
  · rw [heff, meshDims_convertDims hlt', ← foldl_cutSlice_filter hc hmesh hlt' (Nat.zero_le size),
      ← foldl_cutSlice_filter hc hmesh (fun a ha => meshDims_lt h hmem ha) (Nat.zero_le size)]
    exact congrArg _ ((shardOrder hmesh h hmem).filter_effective hz)

theorem roundTrips_iff_of_isTensorMap (hmesh : ∀ n ∈ mesh, 0 < n)
    (h : IsTensorMap mesh tensorMap) : RoundTrips mesh before tensorMap ↔
      ∀ mapping ∈ tensorMap, ¬ Zigzag mesh (mapping.meshDims mesh) := by
  constructor
  · rintro ⟨recovered, hok, -⟩ mapping hmem
    exact not_zigzag_of_placementToTensorMap hmesh h hok hmem
  · intro hz
    refine ⟨_, placementToTensorMap_eq hmesh h hz, fun rank fullShape _ => ?_⟩
    rw [inferSliceAreaByRank_eq, inferSliceAreaByRank_eq]
    refine sliceArea_map_congr fun mapping hmem size => ?_
    exact foldl_recoveredMapping hmesh h hmem (isCoordinate_calculate hmesh) (hz mapping hmem)

/-! ### The tensor maps of alias names -/

section Alias

variable {aliasName written written' written'' : List String} {axes axes' : List ℤ}

/-- The axis of an alias name. -/
def axisOf (aliasName : List String) (item : String) : ℤ :=
  aliasName.length - 1 - aliasName.idxOf item

/-- `axes` are the axes of the names that are written on top of `written`. -/
def Writes (aliasName written : List String) (axes : List ℤ) (written' : List String) : Prop :=
  ∃ names, written' = written ++ names ∧ axes.filter (· ≠ -1) = names.map (axisOf aliasName) ∧
    (∀ item ∈ names, item ∈ aliasName) ∧ (written.Nodup → written'.Nodup)

theorem Writes.nil : Writes aliasName written [] written :=
  ⟨[], by simp, rfl, by simp, id⟩

theorem Writes.append (h : Writes aliasName written axes written')
    (h' : Writes aliasName written' axes' written'') :
    Writes aliasName written (axes ++ axes') written'' := by
  obtain ⟨names, rfl, hfilter, hmem, hnodup⟩ := h
  obtain ⟨names', rfl, hfilter', hmem', hnodup'⟩ := h'
  refine ⟨names ++ names', List.append_assoc _ _ _, ?_, ?_, fun h => hnodup' (hnodup h)⟩
  · rw [List.filter_append, hfilter, hfilter', List.map_append]
  · exact fun item hitem => (List.mem_append.1 hitem).elim (hmem item) (hmem' item)

theorem axisOf_bounds {item : String} (h : item ∈ aliasName) :
    0 ≤ axisOf aliasName item ∧ axisOf aliasName item < aliasName.length := by
  have := List.idxOf_lt_length_iff.2 h
  unfold axisOf
  omega

theorem writes_aliasAxis {item : String} {axis : ℤ}
    (h : aliasAxis aliasName written item = .ok (axis, written')) :
    Writes aliasName written [axis] written' := by
  unfold aliasAxis at h
  split_ifs at h with hnone hmem hwritten
  · obtain ⟨rfl, rfl⟩ := Prod.mk.inj (Except.ok.inj h)
    exact ⟨[], by simp, rfl, by simp, id⟩
  · obtain ⟨rfl, rfl⟩ := Prod.mk.inj (Except.ok.inj h)
    have hpos : axisOf aliasName item ≠ -1 := by
      have := axisOf_bounds hmem
      omega
    refine ⟨[item], rfl, List.filter_eq_self.2 (by simpa [axisOf] using hpos), by simpa using hmem,
      fun hnodup => ?_⟩
    exact List.nodup_append'.2 ⟨hnodup, List.nodup_singleton item, by simpa using hwritten⟩

theorem aliasAxes_cons {item : String} {items : List String}
    (h : aliasAxes aliasName written (item :: items) = .ok (axes, written')) :
    ∃ axis writtenItem rest, aliasAxis aliasName written item = .ok (axis, writtenItem) ∧
      aliasAxes aliasName writtenItem items = .ok (rest, written') ∧ axes = axis :: rest := by
  rw [aliasAxes] at h
  obtain ⟨⟨axis, writtenItem⟩, hitem, h⟩ := bind_eq_ok.1 h
  obtain ⟨⟨rest, writtenRest⟩, hrest, h⟩ := bind_eq_ok.1 h
  obtain ⟨rfl, rfl⟩ := Prod.mk.inj (Except.ok.inj h)
  exact ⟨axis, writtenItem, rest, hitem, hrest, rfl⟩

theorem aliasTensorMap_name {item : String} {entries : List AliasEntry}
    (h : aliasTensorMap aliasName written (.name item :: entries) = .ok tensorMap) :
    ∃ axis writtenItem rest, aliasAxis aliasName written item = .ok (axis, writtenItem) ∧
      aliasTensorMap aliasName writtenItem entries = .ok rest ∧
      tensorMap = .axis axis :: rest := by
  rw [aliasTensorMap] at h
  obtain ⟨⟨axis, writtenItem⟩, hitem, h⟩ := bind_eq_ok.1 h
  obtain ⟨rest, hrest, h⟩ := bind_eq_ok.1 h
  exact ⟨axis, writtenItem, rest, hitem, hrest, (Except.ok.inj h).symm⟩

theorem aliasTensorMap_names {items : List String} {entries : List AliasEntry}
    (h : aliasTensorMap aliasName written (.names items :: entries) = .ok tensorMap) :
    ∃ axes writtenItem rest, aliasAxes aliasName written items = .ok (axes, writtenItem) ∧
      aliasTensorMap aliasName writtenItem entries = .ok rest ∧
      tensorMap = .axes axes :: rest := by
  rw [aliasTensorMap] at h
  obtain ⟨⟨axes, writtenItem⟩, hitem, h⟩ := bind_eq_ok.1 h
  obtain ⟨rest, hrest, h⟩ := bind_eq_ok.1 h
  exact ⟨axes, writtenItem, rest, hitem, hrest, (Except.ok.inj h).symm⟩

theorem writes_aliasAxes {items : List String}
    (h : aliasAxes aliasName written items = .ok (axes, written')) :
    Writes aliasName written axes written' := by
  induction items generalizing written axes with
  | nil =>
    obtain ⟨rfl, rfl⟩ := Prod.mk.inj (Except.ok.inj h)
    exact Writes.nil
  | cons item items ih =>
    obtain ⟨axis, writtenItem, rest, hitem, hrest, rfl⟩ := aliasAxes_cons h
    exact (writes_aliasAxis hitem).append (ih hrest)

theorem writes_aliasTensorMap {entries : List AliasEntry}
    (h : aliasTensorMap aliasName written entries = .ok tensorMap) :
    ∃ written', Writes aliasName written (tensorMap.flatMap TensorMapping.mappedDims) written' := by
  induction entries generalizing written tensorMap with
  | nil =>
    obtain rfl := Except.ok.inj h
    exact ⟨written, Writes.nil⟩
  | cons entry entries ih =>
    cases entry with
    | name item =>
      obtain ⟨axis, writtenItem, rest, hitem, hrest, rfl⟩ := aliasTensorMap_name h
      obtain ⟨written', hwrites⟩ := ih hrest
      exact ⟨written', (writes_aliasAxis hitem).append hwrites⟩
    | names items =>
      obtain ⟨axes, writtenItem, rest, hitem, hrest, rfl⟩ := aliasTensorMap_names h
      obtain ⟨written', hwrites⟩ := ih hrest
      exact ⟨written', (writes_aliasAxes hitem).append hwrites⟩

/-- An accepted alias tensor map uses every mesh axis at most once. -/
theorem isTensorMap_processAliasLayout {entries : List AliasEntry}
    (hlen : aliasName.length = mesh.length)
    (h : processAliasLayout aliasName entries = .ok tensorMap) : IsTensorMap mesh tensorMap := by
  obtain ⟨written', names, hwritten, hfilter, hmem, hnodup⟩ := writes_aliasTensorMap h
  rw [List.nil_append] at hwritten
  constructor
  · intro a ha
    by_cases hne : a = -1
    · exact Or.inl hne
    · have hin : a ∈ (tensorMap.flatMap TensorMapping.mappedDims).filter (· ≠ -1) :=
        List.mem_filter.2 ⟨ha, by simpa using hne⟩
      rw [hfilter] at hin
      obtain ⟨item, hitem, rfl⟩ := List.mem_map.1 hin
      exact Or.inr (hlen ▸ axisOf_bounds (hmem item hitem))
  · rw [hfilter]
    refine List.Nodup.map_on (fun x hx y hy hxy => ?_) (hwritten ▸ hnodup List.nodup_nil)
    refine (List.idxOf_inj (hmem x hx)).1 ?_
    unfold axisOf at hxy
    omega

end Alias

/-- The placements of an accepted alias tensor map give back a tensor map with the same slices
exactly when no tensor dimension is cut in a zigzag. -/
theorem roundTrips_iff (meshShape : List ℕ) (aliasName : List String) (before : List Placement)
    (entries : List AliasEntry) (tensorMap : List TensorMapping) (hmesh : ∀ n ∈ meshShape, 0 < n)
    (hlen : aliasName.length = meshShape.length)
    (h : processAliasLayout aliasName entries = .ok tensorMap) :
    RoundTrips meshShape before tensorMap ↔
      ∀ mapping ∈ tensorMap, ¬ Zigzag meshShape (mapping.meshDims meshShape) :=
  roundTrips_iff_of_isTensorMap hmesh (isTensorMap_processAliasLayout hlen h)

/-- Two axes on one tensor dimension, the right one first. -/
theorem roundTrips_iff_two_four : RoundTrips [2, 4] [] [.axes [0, 1], .axis (-1)] :=
  (roundTrips_iff [2, 4] ["dp", "tp"] [] [.names ["tp", "dp"], .name "None"]
    [.axes [0, 1], .axis (-1)] (by decide) rfl (by decide)).2 (by decide)

/-- One tensor dimension cut by the second, the first and the third of three axes. -/
theorem not_roundTrips_two_two_two :
    processAliasLayout ["a", "b", "c"] [.names ["b", "a", "c"]] = .ok [.axes [1, 2, 0]] ∧
      placementToTensorMap [2, 2, 2] 1 (tensorMapToPlacement [2, 2, 2] [] [.axes [1, 2, 0]]) =
        .error (.splitFactorMismatch 0 4 2) ∧
      ¬ RoundTrips [2, 2, 2] [] [.axes [1, 2, 0]] := by
  have herror : placementToTensorMap [2, 2, 2] 1
      (tensorMapToPlacement [2, 2, 2] [] [.axes [1, 2, 0]]) =
        .error (.splitFactorMismatch 0 4 2) := by decide
  refine ⟨by decide, herror, ?_⟩
  rintro ⟨recovered, hok, -⟩
  exact absurd (hok.symm.trans herror) (by simp)

end HyperParallel.DTensor

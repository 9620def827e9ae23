import HyperParallel.FullyShard.HSDPParam
import HyperParallel.DTensor.PlacementRoundTrip

/-!
# The mesh dimensions of a placement list

What `placement_to_tensor_map` does to any placements that it accepts, negative dimensions included:
the mesh dimensions of a tensor dimension are those whose placement names it
(`placementToTensorMap_spec`), each with the factor that the validation asks for
(`factor_mul_le`).
-/

namespace HyperParallel.FullyShard

open HyperParallel.DTensor

/-! ### Lists -/

section Lists

variable {g : ℕ → ℕ} {l : List ℕ} {p q : ℕ → Bool} {m : ℕ}

theorem zipIdx_eq_map_range {β : Type*} (l : List β) (default : β) :
    l.zipIdx = (List.range l.length).map fun i => (l.getD i default, i) := by
  apply List.ext_getElem
  · simp
  intro i hi hi'
  rw [List.length_zipIdx] at hi
  simp [List.getElem?_eq_getElem hi]

theorem prod_filter_le (hg : ∀ a ∈ l, 0 < g a) : ((l.filter p).map g).prod ≤ (l.map g).prod := by
  induction l with
  | nil => rfl
  | cons a l ih =>
    rw [List.forall_mem_cons] at hg
    rw [List.filter_cons, List.map_cons, List.prod_cons]
    split_ifs
    · rw [List.map_cons, List.prod_cons]
      exact Nat.mul_le_mul_left _ (ih hg.2)
    · exact (ih hg.2).trans (Nat.le_mul_of_pos_left _ hg.1)

/-- An element that is left out divides its share away. -/
theorem prod_filter_mul_le (hg : ∀ a ∈ l, 0 < g a) (hm : m ∈ l) (hp : ¬p m) :
    ((l.filter p).map g).prod * g m ≤ (l.map g).prod := by
  induction l with
  | nil => cases hm
  | cons a l ih =>
    rw [List.forall_mem_cons] at hg
    rw [List.map_cons, List.prod_cons]
    rcases List.mem_cons.1 hm with rfl | hm
    · rw [List.filter_cons_of_neg hp, Nat.mul_comm]
      exact Nat.mul_le_mul_left _ (prod_filter_le hg.2)
    · rw [List.filter_cons]
      split_ifs
      · rw [List.map_cons, List.prod_cons, Nat.mul_assoc]
        exact Nat.mul_le_mul_left _ (ih hg.2 hm)
      · exact (ih hg.2 hm).trans (Nat.le_mul_of_pos_left _ hg.1)

/-- Factors that are one do not count. -/
theorem prod_filter_eq (h : ∀ a ∈ l, p a → q a) (hone : ∀ a ∈ l, q a → ¬p a → g a = 1) :
    ((l.filter p).map g).prod = ((l.filter q).map g).prod := by
  induction l with
  | nil => rfl
  | cons a l ih =>
    rw [List.forall_mem_cons] at h hone
    have hrest := ih h.2 hone.2
    by_cases hp : p a
    · rw [List.filter_cons_of_pos hp, List.filter_cons_of_pos (h.1 hp), List.map_cons, List.map_cons,
        List.prod_cons, List.prod_cons, hrest]
    · rw [List.filter_cons_of_neg hp]
      by_cases hq : q a
      · rw [List.filter_cons_of_pos hq, List.map_cons, List.prod_cons, hone.1 hq hp, Nat.one_mul,
          hrest]
      · rw [List.filter_cons_of_neg hq, hrest]

end Lists

/-! ### The dim map -/

/-- The tensor dimension that a placement names, negative ones counted from the end. -/
def normalDim (ndim : ℕ) (placement : Placement) : Option ℕ :=
  placement.dim?.map fun dim : ℤ => (if dim < 0 then dim + ndim else dim).toNat

/-- The mesh dimensions that shard a tensor dimension, from left to right. -/
def shardAxes (ndim : ℕ) (placements : List Placement) (d : ℕ) : List ℕ :=
  (List.range placements.length).filter fun m =>
    normalDim ndim (placements.getD m .replicate) = some d

section DimMap

variable {ndim d : ℕ} {placements : List Placement} {dims dims' : List (List ℕ)}

theorem dimMapStep_eq {entry : Placement × ℕ} (h : dimMapStep ndim dims entry = .ok dims') :
    dims'.length = dims.length ∧ ∀ d < dims.length, dims'.getD d [] =
      dims.getD d [] ++ if normalDim ndim entry.1 = some d then [entry.2] else [] := by
  unfold dimMapStep at h
  cases hdim : entry.1.dim? with
  | none =>
    simp only [hdim, Except.ok.injEq] at h
    subst h
    simp [normalDim, hdim]
  | some x =>
    simp only [hdim] at h
    split at h
    · cases h
    · obtain rfl := Except.ok.inj h
      refine ⟨List.length_set, fun d hd => ?_⟩
      simp only [normalDim, hdim, Option.map_some, Option.some.injEq]
      generalize (if x < 0 then x + ↑ndim else x).toNat = e
      by_cases hed : e = d
      · subst hed
        simp [List.getElem?_set_self hd]
      · simp [List.getElem?_set_ne hed, hed]

theorem foldlM_dimMapStep_eq {entries : List (Placement × ℕ)}
    (h : entries.foldlM (dimMapStep ndim) dims = .ok dims') :
    dims'.length = dims.length ∧ ∀ d < dims.length, dims'.getD d [] = dims.getD d [] ++
      (entries.filter fun entry => normalDim ndim entry.1 = some d).map Prod.snd := by
  induction entries generalizing dims with
  | nil =>
    obtain rfl := Except.ok.inj h
    simp
  | cons entry entries ih =>
    rw [List.foldlM_cons] at h
    cases hstep : dimMapStep ndim dims entry with
    | error e => simp [hstep, bind, Except.bind] at h
    | ok middle =>
      simp only [hstep, bind, Except.bind] at h
      obtain ⟨hlen, hmiddle⟩ := dimMapStep_eq hstep
      obtain ⟨hlen', hrest⟩ := ih h
      refine ⟨hlen'.trans hlen, fun d hd => ?_⟩
      rw [hrest d (hlen ▸ hd), hmiddle d hd, List.append_assoc, List.filter_cons]
      by_cases hentry : normalDim ndim entry.1 = some d <;> simp [hentry]

theorem dimMap_eq (h : dimMap ndim placements = .ok dims) :
    dims = (List.range ndim).map (shardAxes ndim placements) := by
  obtain ⟨hlen, hdims⟩ := foldlM_dimMapStep_eq (h : placements.zipIdx.foldlM (dimMapStep ndim) _ = _)
  rw [List.length_replicate] at hlen hdims
  apply List.ext_getElem
  · rw [hlen, List.length_map, List.length_range]
  intro d hd hd'
  have hdim := hdims d (hlen ▸ hd)
  rw [List.getD_eq_getElem _ _ hd] at hdim
  rw [hdim, List.getElem_map, List.getElem_range, zipIdx_eq_map_range _ Placement.replicate,
    List.filter_map, List.map_map]
  simp [shardAxes, Function.comp_def]

theorem effectiveShardAxes_of_le {factor : ℕ → ℕ} {axes : List ℕ} (h : axes.length ≤ 1) :
    effectiveShardAxes factor axes = axes := by
  match axes, h with
  | [], _ => rfl
  | [a], _ => rfl

/-- What is accepted, and its tensor map. -/
theorem placementToTensorMap_spec {mesh : List ℕ} {tensorMap : List TensorMapping}
    (hndim : ndim ≠ 0) (h : placementToTensorMap mesh ndim placements = .ok tensorMap) :
    (∀ d < ndim, validateSplitFactors mesh placements (shardAxes ndim placements d) = .ok ()) ∧
      tensorMap = (List.range ndim).map fun d => convertDims mesh
        (effectiveShardAxes (placementFactor placements) (shardAxes ndim placements d)) := by
  unfold placementToTensorMap at h
  rw [if_neg hndim] at h
  cases hdims : dimMap ndim placements with
  | error e => simp [hdims, bind, Except.bind] at h
  | ok dims =>
    simp only [hdims, bind, Except.bind] at h
    cases hvalid : dims.forM (validateSplitFactors mesh placements) with
    | error e => simp [hvalid] at h
    | ok _ =>
      simp only [hvalid, pure, Except.pure, Except.ok.injEq] at h
      obtain rfl := dimMap_eq hdims
      constructor
      · intro d hd
        exact ExceptList.forM_eq_ok.1 hvalid _ (List.mem_map_of_mem (List.mem_range.2 hd))
      · rw [← h, List.map_map]
        refine List.map_congr_left fun d _ => ?_
        simp only [Function.comp_apply]
        split_ifs with hle
        · rw [effectiveShardAxes_of_le hle]
        · rfl

/-- The factor of a mesh dimension is at most what the others of its tensor dimension make. -/
theorem factor_mul_le {mesh axes : List ℕ} {m : ℕ} (hmesh : ∀ a ∈ axes, 0 < mesh.getD a 1)
    (h : validateSplitFactors mesh placements axes = .ok ()) (hm : m ∈ axes) :
    placementFactor placements m * mesh.getD m 1 ≤ (axes.map fun a => mesh.getD a 1).prod := by
  have hvalid := ExceptList.forM_eq_ok.1 h m hm
  have hfactor : placementFactor placements m = computeExpectedSplitFactors mesh axes
      (effectiveShardAxes (placementFactor placements) axes) m := by
    by_contra hne
    simp [hne] at hvalid
  rw [hfactor]
  exact prod_filter_mul_le hmesh hm (by simp)

end DimMap

/-- The slices under a tensor map that comes from placements. -/
theorem sliceArea_range {mesh uneven coord globalShape : List ℕ} {order : ℕ → List ℕ}
    (horder : ∀ j < globalShape.length, ∀ m ∈ order j, m < mesh.length) :
    sliceArea mesh uneven coord globalShape
        ((List.range globalShape.length).map fun j => convertDims mesh (order j)) =
      (List.range globalShape.length).map fun j =>
        (order j).foldl (cutSlice mesh uneven coord) (0, globalShape.getD j 0) := by
  apply List.ext_getElem
  · simp [sliceArea]
  intro j hj hj'
  rw [List.length_map, List.length_range] at hj'
  simp only [sliceArea, List.getElem_zipWith, List.getElem_map, List.getElem_range,
    meshDims_convertDims (horder j hj'), List.getD_eq_getElem _ _ hj']

end HyperParallel.FullyShard

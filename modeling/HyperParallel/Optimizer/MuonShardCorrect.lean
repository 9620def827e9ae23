import HyperParallel.Optimizer.MuonStages
import HyperParallel.DTensor.IndexSelect

/-!
# The gather and the chunks of Muon

* `GroupParam`, `localTensor`: a parameter of a group, and what a rank holds of it;
* `stageMetas_cons`: the metadata are those of the shards over fewer and fewer axes;
* `gatherAxes_eq`, `chunks_eq`: the run over the axes, and the way back;
* `fusedAllgather_eq`: both, for all parameters of a group.
-/

open MixedRadix
open HyperParallel.DTensor
open HyperParallel.FullyShard

namespace HyperParallel.Optimizer

variable {α : Type} [Zero α]

section Run

variable {mesh : Mesh} {placements : List Placement} {axes tail rest : List (ℕ × ℕ)}
  {d a n k : ℕ} {x : Tensor α}

theorem AtAxis.of_suffix (hon : AxesOn mesh n axes) (hinner : InnerFirst mesh placements axes)
    (hascending : Ascending mesh axes) (h : (d, a) :: rest <:+ axes) :
    AtAxis mesh placements axes n d a rest := by
  refine ⟨hon, hinner, hascending, h.subset List.mem_cons_self, fun e he =>
    ⟨h.subset (List.mem_cons_of_mem _ he), ?_⟩⟩
  exact (List.pairwise_cons.1 (hon.sorted.sublist h.sublist)).1 e he

theorem mem_shardGroup {j : ℕ} :
    j ∈ shardGroup mesh d k ↔ ∃ v < shardSize mesh d, peer mesh d k v = j := by
  rw [shardGroup, (List.perm_insertionSort _ _).mem_iff, List.mem_map]
  simp only [List.mem_range]

theorem mem_shardGroup_self (hk : k < mesh.shape.prod) (hd : d < mesh.shape.length) :
    k ∈ shardGroup mesh d k :=
  mem_shardGroup.2 ⟨_, coordinate_lt hk hd, peer_self hk hd⟩

theorem lt_of_mem_shardGroup (hk : k < mesh.shape.prod) {j : ℕ} (hj : j ∈ shardGroup mesh d k) :
    j < mesh.shape.prod := by
  obtain ⟨v, hv, rfl⟩ := mem_shardGroup.1 hj
  by_cases hd : d < mesh.shape.length
  · exact peer_lt hk hd hv
  · have hlength := (valid_coordinate hk).length_eq
    rw [peer, List.set_eq_of_length_le (by omega)]
    exact ofDigits_lt (valid_coordinate hk)

/-- The members of a group have the same group. -/
theorem shardGroup_of_mem (hk : k < mesh.shape.prod) (hd : d < mesh.shape.length) {j : ℕ}
    (hj : j ∈ shardGroup mesh d k) : shardGroup mesh d j = shardGroup mesh d k := by
  obtain ⟨v, hv, rfl⟩ := mem_shardGroup.1 hj
  unfold shardGroup
  congr 1
  exact List.map_congr_left fun u _ => peer_peer hk hd hv

theorem length_shardGroup : (shardGroup mesh d k).length = shardSize mesh d := by
  rw [shardGroup, List.length_insertionSort, List.length_map, List.length_range]

/-! ### The metadata -/

/-- The stage of an axis, for the shards of a tensor. -/
def stageOf (mesh : Mesh) (placements : List Placement) (axes : List (ℕ × ℕ)) (axis : ℕ × ℕ)
    (rest : List (ℕ × ℕ)) (x : Tensor α) (k : ℕ) : StageMeta :=
  stageAt mesh axis (fun j => (shardOver mesh placements axes (axis :: rest) x j).shape) k

theorem splitSizes_stageOf :
    (stageOf mesh placements axes (d, a) rest x k).splitSizes = (shardGroup mesh d k).map fun j =>
      (shardOver mesh placements axes ((d, a) :: rest) x j).shape.getD a 0 := by
  simp only [stageOf, stageAt, buildStageMeta, List.map_map]
  rfl

/-- A mesh dimension of size one leaves the shards as they are. -/
theorem AtAxis.shardOver_of_one (h : AtAxis mesh placements axes x.shape.length d a rest)
    (hsize : ¬ 1 < shardSize mesh d) :
    shardOver mesh placements axes ((d, a) :: rest) x k =
      shardOver mesh placements axes rest x k := by
  have hd := h.on.mesh_lt _ h.mem
  have hcoord : IsCoordinate mesh.shape (mesh.coordinate k) := Mesh.isCoordinate_coordinate
  have hone : mesh.shape.getD d 1 = 1 := by
    have := hcoord d hd
    unfold shardSize at hsize
    omega
  have hslices : sliceOver mesh placements axes ((d, a) :: rest) x.shape k =
      sliceOver mesh placements axes rest x.shape k := by
    funext b
    by_cases hb : b = a
    · rw [hb, sliceOver_cons h.on h.inner h.mem h.rest]
      exact cutSlice_of_one hcoord hd hone (sliceOver_bounds h.on rest a).1
    · exact sliceOver_of_ne hb
  unfold shardOver
  rw [hslices]

/-- Behind a stage the shapes are those of the shards over the axes behind it. -/
theorem AtAxis.outputShape (h : AtAxis mesh placements axes x.shape.length d a rest)
    (hk : k < mesh.shape.prod) : (stageOf mesh placements axes (d, a) rest x k).outputShape =
      (shardOver mesh placements axes rest x k).shape := by
  have hd := h.on.mesh_lt _ h.mem
  have hself := mem_shardGroup_self hk hd
  have hown : (stageOf mesh placements axes (d, a) rest x k).rankShapes.getD
      (stageOf mesh placements axes (d, a) rest x k).curRankInShardGroup [] =
        (shardOver mesh placements axes ((d, a) :: rest) x k).shape := by
    have hidx := List.idxOf_lt_length_of_mem hself
    show ((shardGroup mesh d k).map _).getD ((shardGroup mesh d k).idxOf k) [] = _
    rw [List.getD_eq_getElem _ _ (by rwa [List.length_map]), List.getElem_map,
      List.getElem_idxOf hidx]
  have hcount : (stageOf mesh placements axes (d, a) rest x k).shardSize = shardSize mesh d := by
    show ((shardGroup mesh d k).map _).length = _
    rw [List.length_map, length_shardGroup]
  have hdim : (stageOf mesh placements axes (d, a) rest x k).tensorDim = a := rfl
  have hbase : a < (shardOver mesh placements axes rest x k).shape.length := by
    simpa [shape_shardOver] using h.on.dim_lt _ h.mem
  unfold StageMeta.outputShape
  simp only [hown, hcount, hdim, splitSizes_stageOf]
  split_ifs with hsize
  · have hpeer := h.shape_eq hk (coordinate_lt hk hd)
    rw [peer_self hk hd] at hpeer
    rw [hpeer, List.set_set, h.sum_sizes hk, set_getD_self hbase]
  · rw [h.shardOver_of_one hsize]

theorem stageMetas_congr {shapes shapes' : ℕ → List ℕ}
    (h : ∀ j < mesh.shape.prod, shapes j = shapes' j) (hk : k < mesh.shape.prod) :
    stageMetas mesh tail shapes k = stageMetas mesh tail shapes' k := by
  induction tail generalizing shapes shapes' k with
  | nil => rfl
  | cons axis tail ih =>
    have hstage : ∀ j < mesh.shape.prod,
        stageAt mesh axis shapes j = stageAt mesh axis shapes' j := by
      intro j hj
      unfold stageAt
      simp only
      rw [List.map_congr_left fun i hi => h i (lt_of_mem_shardGroup hj hi)]
    unfold stageMetas
    rw [hstage k hk, ih (fun j hj => by rw [hstage j hj]) hk]

theorem stageMetas_cons (hon : AxesOn mesh x.shape.length axes)
    (hinner : InnerFirst mesh placements axes) (hascending : Ascending mesh axes)
    (h : (d, a) :: rest <:+ axes) (hk : k < mesh.shape.prod) :
    stageMetas mesh ((d, a) :: rest)
      (fun j => (shardOver mesh placements axes ((d, a) :: rest) x j).shape) k =
      stageOf mesh placements axes (d, a) rest x k ::
        stageMetas mesh rest (fun j => (shardOver mesh placements axes rest x j).shape) k := by
  refine congrArg (stageOf mesh placements axes (d, a) rest x k :: ·) ?_
  refine stageMetas_congr (fun j hj => ?_) hk
  exact (AtAxis.of_suffix hon hinner hascending h).outputShape hj

/-- The stage of an axis of the whole list. -/
theorem getD_stageMetas (hon : AxesOn mesh x.shape.length axes)
    (hinner : InnerFirst mesh placements axes) (hascending : Ascending mesh axes)
    {before : List (ℕ × ℕ)} (h : before ++ (d, a) :: rest <:+ axes) (hk : k < mesh.shape.prod)
    (default : StageMeta) :
    (stageMetas mesh (before ++ (d, a) :: rest)
      (fun j => (shardOver mesh placements axes (before ++ (d, a) :: rest) x j).shape) k).getD
        before.length default = stageOf mesh placements axes (d, a) rest x k := by
  induction before with
  | nil =>
    rw [List.nil_append, stageMetas_cons hon hinner hascending h hk]
    rfl
  | cons e before ih =>
    obtain ⟨e, b⟩ := e
    rw [List.cons_append] at h
    rw [List.cons_append, stageMetas_cons hon hinner hascending h hk, List.length_cons,
      List.getD_cons_succ]
    exact ih ((List.suffix_cons _ _).trans h)

/-! ### The chunks -/

/-- `chunk_update_by_layout` over some of the axes. -/
theorem chunks_eq {update : Tensor α} (hshape : update.shape = x.shape)
    (hon : AxesOn mesh x.shape.length axes) (hinner : InnerFirst mesh placements axes)
    (hascending : Ascending mesh axes) (h : tail <:+ axes) (hk : k < mesh.shape.prod)
    (hnil : shardOver mesh placements axes [] update k = update) :
    chunkUpdate mesh k update tail
      (stageMetas mesh tail (fun j => (shardOver mesh placements axes tail x j).shape) k) =
      shardOver mesh placements axes tail update k := by
  induction tail with
  | nil => exact hnil.symm
  | cons axis tail ih =>
    obtain ⟨d, a⟩ := axis
    have hat := AtAxis.of_suffix hon hinner hascending h
    have hup : AtAxis mesh placements axes update.shape.length d a tail := by rwa [hshape]
    have hd := hat.on.mesh_lt _ hat.mem
    have hrest := ih ((List.suffix_cons _ _).trans h)
    rw [stageMetas_cons hon hinner hascending h hk]
    show (if shardSize mesh d ≤ 1 then chunkUpdate mesh k update tail _
      else narrow (chunkUpdate mesh k update tail _) a _ _) = _
    rw [hrest]
    split_ifs with hsize
    · exact (hup.shardOver_of_one (Nat.not_lt.2 hsize)).symm
    -- the sizes are the same for all tensors of a shape
    have hsizes : (stageOf mesh placements axes (d, a) tail x k).splitSizes =
        (shardGroup mesh d k).map fun j =>
          (shardOver mesh placements axes ((d, a) :: tail) update j).shape.getD a 0 := by
      rw [splitSizes_stageOf]
      simp only [shape_shardOver, hshape]
    have hv := coordinate_lt hk hd
    have hself := peer_self hk hd
    have hbase : a < (shardOver mesh placements axes tail update k).shape.length := by
      simpa [shape_shardOver] using hup.on.dim_lt _ hup.mem
    have hown : ((stageOf mesh placements axes (d, a) tail x k).splitSizes).getD
        ((mesh.coordinate k).getD d 0) 0 =
        (shardOver mesh placements axes ((d, a) :: tail) update k).shape.getD a 0 := by
      have hsize := hup.size hk hv
      rw [hself] at hsize
      rw [hsizes, hup.sizes hk, List.getD_eq_getElem _ _ (by simpa using hv), List.getElem_map,
        List.getElem_range, hsize]
      rfl
    have hpeer := hup.shape_eq hk hv
    rw [hself] at hpeer
    rw [hown]
    refine Tensor.ext_entry hpeer.symm ?_
    intro idx hidx
    have hidx' : Valid (shardOver mesh placements axes ((d, a) :: tail) update k).shape idx := by
      rw [hpeer]
      exact hidx
    have hidxLength : a < idx.length := by
      rw [hidx'.length_eq]
      simpa [shape_shardOver] using hup.on.dim_lt _ hup.mem
    have hvalid : Valid (shardOver mesh placements axes ((d, a) :: tail) update
        (peer mesh d k ((mesh.coordinate k).getD d 0))).shape idx := by
      rw [hself]
      exact hidx'
    have hentry := hup.entry hk hv hvalid
    rw [hself] at hentry
    rw [hentry, ← hup.sum_take hk hv, ← hsizes]
    exact Tensor.entry_ofEntries _ hidx

/-! ### The gather -/

/-- What a stage reads of a parameter's shards. -/
theorem AtAxis.stageInput {alignment : ℕ} (halignment : 0 < alignment)
    (h : AtAxis mesh placements axes x.shape.length d a rest) (hk : k < mesh.shape.prod) :
    StageInput mesh alignment (d, a) k (shardOver mesh placements axes rest x k).shape
      (shardOver mesh placements axes ((d, a) :: rest) x)
      (stageOf mesh placements axes (d, a) rest x) where
  lt := by simpa [shape_shardOver] using h.on.dim_lt _ h.mem
  mem := mem_shardGroup_self hk (h.on.mesh_lt _ h.mem)
  shape := by
    intro j hj
    obtain ⟨v, hv, rfl⟩ := mem_shardGroup.1 hj
    exact h.shape_eq hk hv
  padded := by
    intro j hj
    have hgroup := shardGroup_of_mem hk (h.on.mesh_lt _ h.mem) hj
    simp only [paddedNumel, stageOf, stageAt, buildStageMeta, hgroup]
  fits := by
    intro j hj
    have hlength : ∀ shape ∈ (shardGroup mesh d k).map fun j =>
        (shardOver mesh placements axes ((d, a) :: rest) x j).shape,
        shape.length = x.shape.length := by
      intro shape hshape
      obtain ⟨i, -, rfl⟩ := List.mem_map.1 hshape
      simp [shape_shardOver]
    have hmem := List.mem_map_of_mem
      (f := fun j => (shardOver mesh placements axes ((d, a) :: rest) x j).shape) hj
    have hpad : a < (maxShape ((shardGroup mesh d k).map fun j =>
        (shardOver mesh placements axes ((d, a) :: rest) x j).shape)).length := by
      rw [length_maxShape hlength hmem]
      exact h.on.dim_lt _ h.mem
    refine (prod_le_maxShape hlength hmem).trans ?_
    rw [← prod_swapFront hpad]
    exact le_ceil halignment
  split := splitSizes_stageOf

end Run

section Params

variable {mesh : Mesh} {axes tail : List (ℕ × ℕ)} {n alignment k : ℕ}

/-- The shard of a rank under placements with a tensor map. -/
def localTensor (mesh : Mesh) (placements : List Placement) (tensorMap : List TensorMapping)
    (x : Tensor α) (k : ℕ) : Tensor α :=
  let area := inferSliceAreaByRank mesh.shape tensorMap k x.shape (unevenShardMeshDims placements)
  Tensor.ofEntries (areaShape area) fun idx => x.entry (globalIndex area idx)

/-- A parameter of a group: the group's axes are those of its placements. -/
structure GroupParam (mesh : Mesh) (n : ℕ) (axes : List (ℕ × ℕ)) (α : Type) [Zero α] where
  placements : List Placement
  tensorMap : List TensorMapping
  global : Tensor α
  length_placements : placements.length = mesh.shape.length
  toTensorMap : placementToTensorMap mesh.shape n placements = .ok tensorMap
  extract : extractShardAxes n 0 placements = .ok axes
  length_global : global.shape.length = n

namespace GroupParam

/-- The local tensor of a rank. -/
def onRank (p : GroupParam mesh n axes α) (k : ℕ) : Tensor α :=
  localTensor mesh p.placements p.tensorMap p.global k

/-- The stages of the parameter on a rank. -/
def metas (p : GroupParam mesh n axes α) (k : ℕ) : List StageMeta :=
  stageMetas mesh axes (fun j => (p.onRank j).shape) k

theorem axesOn (p : GroupParam mesh n axes α) : AxesOn mesh n axes := by
  obtain ⟨hsorted, hbounds⟩ := axes_of_extract p.extract
  refine ⟨hsorted, fun e he => ?_, fun e he => (hbounds e he).2.2⟩
  have := (hbounds e he).2.1
  rw [p.length_placements] at this
  omega

end GroupParam

theorem normalDim_of_normalize {placement : Placement} {dim : ℤ} {b : ℕ}
    (hdim : placement.dim? = some dim) (h : normalizeTensorDim dim n = .ok b) :
    normalDim n placement = some b := by
  rw [normalDim, hdim, Option.map_some]
  unfold normalizeTensorDim at h
  simp only at h
  generalize (if dim < 0 then dim + (n : ℤ) else dim) = normalized at h ⊢
  split_ifs at h
  cases h
  rfl

theorem shardAxes_cons {a : ℕ} (placement : Placement) (placements : List Placement) :
    shardAxes n (placement :: placements) a =
      (if normalDim n placement = some a then [0] else []) ++
        (shardAxes n placements a).map (· + 1) := by
  unfold shardAxes
  rw [List.length_cons, List.range_succ_eq_map, List.filter_cons, List.filter_map]
  by_cases h : normalDim n placement = some a <;> simp [h, Function.comp_def]

/-- The axes of a tensor dimension are the mesh dimensions whose placement names it. -/
theorem shardAxes_eq {meshDim a : ℕ} {placements : List Placement} {axes : List (ℕ × ℕ)}
    (h : extractShardAxes n meshDim placements = .ok axes) :
    (axes.filter fun axis => axis.2 = a).map Prod.fst =
      (shardAxes n placements a).map (meshDim + ·) := by
  induction placements generalizing meshDim axes with
  | nil =>
    cases h
    rfl
  | cons placement placements ih =>
    have hnext : ∀ l : List ℕ, (l.map (· + 1)).map (meshDim + ·) = l.map (meshDim + 1 + ·) := by
      intro l
      rw [List.map_map]
      exact List.map_congr_left fun i _ => by simp only [Function.comp_apply]; omega
    rw [shardAxes_cons, List.map_append, hnext]
    cases hdim : placement.dim? with
    | none =>
      rw [extractShardAxes, hdim] at h
      rw [ih h, normalDim, hdim]
      rfl
    | some dim =>
      obtain ⟨b, rest, hnorm, hrest, rfl⟩ := extractShardAxes_cons hdim h
      rw [normalDim_of_normalize hdim hnorm, ← ih hrest, List.filter_cons]
      by_cases hb : b = a <;> simp [hb]

/-- The local tensor is the shard over all axes. -/
theorem GroupParam.localTensor_eq (p : GroupParam mesh n axes α) {x : Tensor α}
    (hx : x.shape.length = n) : localTensor mesh p.placements p.tensorMap x k =
      shardOver mesh p.placements axes axes x k := by
  have harea : inferSliceAreaByRank mesh.shape p.tensorMap k x.shape
      (unevenShardMeshDims p.placements) =
      (List.range x.shape.length).map (sliceOver mesh p.placements axes axes x.shape k) := by
    subst hx
    by_cases hn : x.shape.length = 0
    · have hempty := List.length_eq_zero_iff.1 hn
      simp [inferSliceAreaByRank, hempty]
    · rw [inferSliceAreaByRank_eq, (placementToTensorMap_spec hn p.toTensorMap).2, sliceArea_range]
      · refine List.map_congr_left fun a _ => ?_
        have horder : (cutOrder p.placements axes a).filter (shards axes a) =
            cutOrder p.placements axes a :=
          List.filter_eq_self.2 fun d hd => shards_iff.2 (mem_cutOrder.1 hd)
        have haxes := shardAxes_eq (a := a) p.extract
        simp only [Nat.zero_add, List.map_id'] at haxes
        rw [sliceOver, horder, cutOrder, haxes]
        rfl
      · intro j _ m hm
        rw [← p.length_placements]
        have haxis := (List.perm_insertionSort _ _).mem_iff.1 hm
        exact List.mem_range.1 (List.mem_of_mem_filter haxis)
  unfold localTensor shardOver within
  simp only [harea, areaShape, List.map_map]
  refine Tensor.ofEntries_congr fun idx hidx => ?_
  congr 1
  have hlength := hidx.length_eq
  rw [List.length_map, List.length_range] at hlength
  apply List.ext_getElem
  · simp [globalIndex, hlength]
  · intro b hb hb'
    have hlt : b < idx.length := by simp only [List.length_map, List.length_range] at hb'; omega
    simp [globalIndex, List.getElem?_eq_getElem hlt]

theorem GroupParam.onRank_eq (p : GroupParam mesh n axes α) :
    p.onRank k = shardOver mesh p.placements axes axes p.global k :=
  p.localTensor_eq p.length_global

theorem shardOver_nil {placements : List Placement} {x : Tensor α} :
    shardOver mesh placements axes [] x k = x := by
  have hslice : ∀ a, sliceOver mesh placements axes [] x.shape k a = (0, x.shape.getD a 0) := by
    intro a
    rw [sliceOver, List.filter_eq_nil_iff.2 fun d _ => by simp [shards]]
    rfl
  have hshape : (shardOver mesh placements axes [] x k).shape = x.shape := by
    rw [shape_shardOver]
    simp only [hslice, Nat.sub_zero]
    exact List.ext_getElem (by simp) fun b hb hb' => by simp [hb']
  refine Tensor.ext_entry hshape fun idx hidx => ?_
  rw [entry_shardOver hidx]
  rw [hshape] at hidx
  have hlength := hidx.length_eq
  simp only [hslice, Nat.zero_add]
  congr 1
  refine List.ext_getElem (by simp [hlength]) fun b hb hb' => ?_
  simp [hb']

/-- A stage reads what the ranks of its group have. -/
theorem gatherStage_congr {axis : ℕ × ℕ} {cached : ℕ → ℕ → List α}
    {current current' : ℕ → List (Tensor α × StageMeta)}
    (h : ∀ j < mesh.shape.prod, current j = current' j) (hk : k < mesh.shape.prod) :
    gatherStage mesh alignment axis cached current k =
      gatherStage mesh alignment axis cached current' k := by
  unfold gatherStage
  simp only
  rw [h k hk, List.map_congr_left fun j hj => by rw [h j (lt_of_mem_shardGroup hk hj)]]

section Gather

variable {params : List (GroupParam mesh n axes α)} {cached : ℕ → ℕ → ℕ → List α}

theorem GroupParam.metas_eq (p : GroupParam mesh n axes α) : p.metas k =
    stageMetas mesh axes (fun j => (shardOver mesh p.placements axes axes p.global j).shape) k := by
  unfold metas
  simp only [p.onRank_eq]

/-- The stage of an axis brings the shards of all parameters to the axes behind it. -/
theorem stage_eq (halignment : 0 < alignment)
    (hcached : ∀ idx j total, total ≤ (cached idx j total).length)
    (hinner : ∀ p ∈ params, InnerFirst mesh p.placements axes) (hascending : Ascending mesh axes)
    {before : List (ℕ × ℕ)} {d a : ℕ} (hsplit : axes = before ++ (d, a) :: tail)
    {current : ℕ → List (Tensor α)} (hcurrent : ∀ j < mesh.shape.prod, current j =
      params.map fun p => shardOver mesh p.placements axes ((d, a) :: tail) p.global j)
    (hk : k < mesh.shape.prod) (default : StageMeta) :
    gatherStage mesh alignment (d, a) (cached before.length) (fun j =>
      (current j).zip ((params.map fun p => p.metas j).map fun stages =>
        stages.getD before.length default)) k =
      some (params.map fun p => shardOver mesh p.placements axes tail p.global k) := by
  have hsuffix : (d, a) :: tail <:+ axes := ⟨before, hsplit.symm⟩
  have hat : ∀ p ∈ params, AtAxis mesh p.placements axes p.global.shape.length d a tail := by
    intro p hp
    rw [p.length_global]
    exact AtAxis.of_suffix p.axesOn (hinner p hp) hascending hsuffix
  have hmetas : ∀ p ∈ params, ∀ j < mesh.shape.prod, (p.metas j).getD before.length default =
      stageOf mesh p.placements axes (d, a) tail p.global j := by
    intro p hp j hj
    have hself : before ++ (d, a) :: tail <:+ axes := by
      rw [hsplit]
    have h := getD_stageMetas (hat p hp).on (hinner p hp) hascending hself hj default
    rw [← hsplit] at h
    rw [p.metas_eq, h]
  have hread : ∀ j < mesh.shape.prod, (current j).zip ((params.map fun p => p.metas j).map
      fun stages => stages.getD before.length default) = params.map fun p =>
        (shardOver mesh p.placements axes ((d, a) :: tail) p.global j,
          stageOf mesh p.placements axes (d, a) tail p.global j) := by
    intro j hj
    rw [hcurrent j hj, List.map_map, List.zip_map']
    refine List.map_congr_left fun p hp => ?_
    simp only [Function.comp_apply, hmetas p hp j hj]
  rw [gatherStage_congr hread hk]
  exact gatherStage_eq (hcached before.length) (fun p hp => (hat p hp).stageInput halignment hk)
    fun p hp => (hat p hp).whole hk

/-- The run over the axes from one of them on. -/
theorem gatherAxes_eq (halignment : 0 < alignment)
    (hcached : ∀ idx j total, total ≤ (cached idx j total).length)
    (hinner : ∀ p ∈ params, InnerFirst mesh p.placements axes) (hascending : Ascending mesh axes)
    {before : List (ℕ × ℕ)} (hsplit : axes = before ++ tail) {current : ℕ → List (Tensor α)}
    (hcurrent : ∀ j < mesh.shape.prod, current j =
      params.map fun p => shardOver mesh p.placements axes tail p.global j) :
    gatherAxes mesh alignment cached (fun j => params.map fun p => p.metas j)
      ((tail.zipIdx before.length).filter fun axis => 1 < shardSize mesh axis.1.1) current =
      some ((List.range mesh.shape.prod).map fun _ => params.map fun p => p.global) := by
  induction tail generalizing before current with
  | nil =>
    refine congrArg some (List.map_congr_left fun j hj => ?_)
    rw [hcurrent j (List.mem_range.1 hj)]
    exact List.map_congr_left fun p _ => shardOver_nil
  | cons axis tail ih =>
    obtain ⟨d, a⟩ := axis
    have hsplit' : axes = (before ++ [(d, a)]) ++ tail := by
      rw [hsplit, List.append_assoc]
      rfl
    have hlength : (before ++ [(d, a)]).length = before.length + 1 := List.length_append
    rw [List.zipIdx_cons, List.filter_cons, ← hlength]
    split_ifs with hsize
    · have hstage : (List.range mesh.shape.prod).mapM (gatherStage mesh alignment (d, a)
          (cached before.length) fun j => (current j).zip ((params.map fun p => p.metas j).map
            fun stages => stages.getD before.length ⟨0, 0, 0, [], [], []⟩)) =
          some ((List.range mesh.shape.prod).map fun j =>
            params.map fun p => shardOver mesh p.placements axes tail p.global j) :=
        mapM_of_getElem? (by simp) fun i j hj => ⟨_, by rw [List.getElem?_map, hj]; rfl,
          stage_eq halignment hcached hinner hascending hsplit hcurrent
            (List.mem_range.1 (List.mem_of_getElem? hj)) _⟩
      unfold gatherAxes
      rw [hstage, Option.bind_eq_bind, Option.bind_some]
      refine ih hsplit' fun j hj => ?_
      rw [List.getD_eq_getElem _ _ (by simpa using hj), List.getElem_map, List.getElem_range]
    · refine ih hsplit' fun j hj => ?_
      rw [hcurrent j hj]
      refine List.map_congr_left fun p hp => ?_
      have hat : AtAxis mesh p.placements axes p.global.shape.length d a tail := by
        rw [p.length_global]
        exact AtAxis.of_suffix p.axesOn (hinner p hp) hascending ⟨before, hsplit.symm⟩
      exact hat.shardOver_of_one (by simpa using hsize)

/-- Where the mesh dimensions of a tensor dimension cut it from the last to the first, and the ranks
ascend along them, every kept parameter comes back and its chunks are the shards. -/
theorem fusedAllgather_eq (halignment : 0 < alignment)
    (hcached : ∀ idx j total, total ≤ (cached idx j total).length)
    (hinner : ∀ p ∈ params, InnerFirst mesh p.placements axes) (hascending : Ascending mesh axes)
    (hk : k < mesh.shape.prod) (keep : ℕ → ℕ → Bool) :
    fusedAllgather mesh alignment cached axes (fun j => params.map fun p => p.metas j)
        (fun j => params.map fun p => p.onRank j) keep k =
        some (params.mapIdx fun i p => if keep k i then some p.global else none) ∧
      ∀ p ∈ params, (∀ update : Tensor α, update.shape = p.global.shape →
        chunkUpdate mesh k update axes (p.metas k) =
          localTensor mesh p.placements p.tensorMap update k) ∧
        chunkUpdate mesh k p.global axes (p.metas k) = p.onRank k := by
  have hchunk : ∀ p ∈ params, ∀ update : Tensor α, update.shape = p.global.shape →
      chunkUpdate mesh k update axes (p.metas k) =
        localTensor mesh p.placements p.tensorMap update k := by
    intro p hp update hshape
    rw [p.metas_eq, p.localTensor_eq (by rw [hshape, p.length_global])]
    exact chunks_eq hshape (by rw [p.length_global]; exact p.axesOn) (hinner p hp) hascending
      (List.suffix_refl axes) hk shardOver_nil
  refine ⟨?_, fun p hp => ⟨hchunk p hp, hchunk p hp p.global rfl⟩⟩
  have hlocal : ∀ j < mesh.shape.prod, (params.map fun p => p.onRank j) =
      params.map fun p => shardOver mesh p.placements axes axes p.global j :=
    fun j _ => List.map_congr_left fun p _ => p.onRank_eq
  have hnil : axes = [] ++ axes := rfl
  have hgather := gatherAxes_eq halignment hcached hinner hascending hnil hlocal
  unfold fusedAllgather
  simp only
  rw [List.length_nil] at hgather
  rw [hgather, Option.map_some, List.getD_eq_getElem _ _ (by simpa using hk), List.getElem_map]
  exact congrArg some (List.ext_getElem (by simp) fun i hi hi' => by simp)

end Gather

/-! ### Two mesh dimensions on the rows -/

/-- A vector of four rows. -/
def fourRows : Tensor ℕ := Tensor.ofEntries [4] fun idx => idx.getD 0 0 + 1

/-- The rows cut along the first mesh dimension, then along the second. -/
def shardShard : GroupParam IndexSelect.meshTwoTwo 1 [(0, 0), (1, 0)] ℕ where
  placements := [.shard 0 false, .shard 0 false]
  tensorMap := [.axes [1, 0]]
  global := fourRows
  length_placements := rfl
  toTensorMap := by decide
  extract := rfl
  length_global := rfl

/-- The rows cut along the second mesh dimension, then along the first. -/
def stridedShard : GroupParam IndexSelect.meshTwoTwo 1 [(0, 0), (1, 0)] ℕ where
  placements := [.stridedShard 0 2 false, .shard 0 false]
  tensorMap := [.axes [0, 1]]
  global := fourRows
  length_placements := rfl
  toTensorMap := by decide
  extract := rfl
  length_global := rfl

/-- Cut along the first mesh dimension first, the rows come back out of order. -/
theorem not_fusedAllgather_shardShard :
    fusedAllgather IndexSelect.meshTwoTwo 128 (fun _ _ total => List.replicate total 0) [(0, 0), (1, 0)]
      (fun j => [shardShard].map fun p => p.metas j) (fun j => [shardShard].map fun p => p.onRank j)
      (fun _ _ => true) 0 ≠ some [some fourRows] := by
  intro h
  have hrow := congrArg (fun r => (r.getD []).map fun t => t.map fun t => t.entry [1]) h
  exact absurd hrow (by decide)

theorem fusedAllgather_eq_stridedShard :
    fusedAllgather IndexSelect.meshTwoTwo 128 (fun _ _ total => List.replicate total 0) [(0, 0), (1, 0)]
        (fun j => [stridedShard].map fun p => p.metas j)
        (fun j => [stridedShard].map fun p => p.onRank j) (fun _ _ => true) 0 =
        some [some fourRows] ∧
      ∀ p ∈ [stridedShard], (∀ update : Tensor ℕ, update.shape = p.global.shape →
        chunkUpdate IndexSelect.meshTwoTwo 0 update [(0, 0), (1, 0)] (p.metas 0) =
          localTensor IndexSelect.meshTwoTwo p.placements p.tensorMap update 0) ∧
        chunkUpdate IndexSelect.meshTwoTwo 0 p.global [(0, 0), (1, 0)] (p.metas 0) = p.onRank 0 := by
  refine fusedAllgather_eq (by decide) (fun _ _ total => by rw [List.length_replicate]) ?_ ?_
    (by decide) fun _ _ => true
  · intro p hp a
    obtain rfl := List.mem_singleton.1 hp
    cases a with
    | zero => decide
    | succ a => exact .nil
  · unfold Ascending
    decide

end Params

end HyperParallel.Optimizer

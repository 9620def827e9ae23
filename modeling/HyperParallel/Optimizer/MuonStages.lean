import HyperParallel.Optimizer.MuonBuffers
import HyperParallel.FullyShard.ShardAxes

/-!
# What the stages leave

Where the mesh dimensions that cut a tensor dimension cut it from the last to the first, a stage
puts the pieces of its axis together and leaves the shards over the axes behind it
(`AtAxis.whole`).
-/

open MixedRadix
open HyperParallel.DTensor

namespace HyperParallel.Optimizer

variable {α : Type} [Zero α]

/-! ### Shards -/

section Shards

/-- A mesh dimension shards the tensor dimension `a` in some axes. -/
def shards (axes : List (ℕ × ℕ)) (a d : ℕ) : Bool :=
  axes.any fun axis => axis.1 = d && axis.2 = a

theorem shards_iff {axes : List (ℕ × ℕ)} {a d : ℕ} : shards axes a d = true ↔ (d, a) ∈ axes := by
  simp [shards]

/-- The slice of a tensor dimension on a rank, cut along some of the axes. -/
def sliceOver (mesh : Mesh) (placements : List Placement) (axes remaining : List (ℕ × ℕ))
    (shape : List ℕ) (k a : ℕ) : ℕ × ℕ :=
  ((cutOrder placements axes a).filter (shards remaining a)).foldl
    (cutSlice mesh.shape (unevenShardMeshDims placements) (mesh.coordinate k))
    (0, shape.getD a 0)

/-- The part of a tensor within some slices. -/
def within (slice : ℕ → ℕ × ℕ) (x : Tensor α) : Tensor α :=
  Tensor.ofEntries ((List.range x.shape.length).map fun a => (slice a).2 - (slice a).1) fun idx =>
    x.entry ((List.range x.shape.length).map fun a => (slice a).1 + idx.getD a 0)

/-- The shard of a rank, cut along some of the axes. -/
def shardOver (mesh : Mesh) (placements : List Placement) (axes remaining : List (ℕ × ℕ))
    (x : Tensor α) (k : ℕ) : Tensor α :=
  within (sliceOver mesh placements axes remaining x.shape k) x

/-- A placement that shards gives the first of the axes. -/
theorem extractShardAxes_cons {n meshDim : ℕ} {placement : Placement} {placements : List Placement}
    {dim : ℤ} {axes : List (ℕ × ℕ)} (hdim : placement.dim? = some dim)
    (h : extractShardAxes n meshDim (placement :: placements) = .ok axes) :
    ∃ a rest, normalizeTensorDim dim n = .ok a ∧
      extractShardAxes n (meshDim + 1) placements = .ok rest ∧ axes = (meshDim, a) :: rest := by
  unfold extractShardAxes at h
  rw [hdim] at h
  obtain ⟨a, hnorm, h⟩ := ExceptList.bind_eq_ok.1 h
  obtain ⟨rest, hrest, h⟩ := ExceptList.bind_eq_ok.1 h
  exact ⟨a, rest, hnorm, hrest, (Except.ok.inj h).symm⟩

theorem axes_of_extract {n meshDim : ℕ} {placements : List Placement} {axes : List (ℕ × ℕ)}
    (h : extractShardAxes n meshDim placements = .ok axes) :
    axes.Pairwise (fun e e' => e.1 < e'.1) ∧ ∀ e ∈ axes, meshDim ≤ e.1 ∧
      e.1 < meshDim + placements.length ∧ e.2 < n := by
  induction placements generalizing meshDim axes with
  | nil =>
    cases h
    exact ⟨.nil, fun e he => by cases he⟩
  | cons placement placements ih =>
    cases hdim : placement.dim? with
    | none =>
      rw [extractShardAxes, hdim] at h
      obtain ⟨hsorted, hbounds⟩ := ih h
      refine ⟨hsorted, fun e he => ?_⟩
      have := hbounds e he
      rw [List.length_cons]
      omega
    | some dim =>
      obtain ⟨a, rest, hnorm, hrest, rfl⟩ := extractShardAxes_cons hdim h
      obtain ⟨hsorted, hbounds⟩ := ih hrest
      have ha : a < n := by
        unfold normalizeTensorDim at hnorm
        simp only at hnorm
        split_ifs at hnorm <;> cases hnorm <;> omega
      refine ⟨List.pairwise_cons.2 ⟨fun e he => ?_, hsorted⟩, fun e he => ?_⟩
      · have := (hbounds e he).1
        show meshDim < e.1
        omega
      · rw [List.length_cons]
        rcases List.mem_cons.1 he with rfl | he
        · exact ⟨le_refl _, by omega, ha⟩
        · have := hbounds e he
          omega

theorem mem_cutOrder {placements : List Placement} {axes : List (ℕ × ℕ)} {a d : ℕ} :
    d ∈ cutOrder placements axes a ↔ (d, a) ∈ axes := by
  unfold cutOrder effectiveShardAxes
  rw [(List.perm_insertionSort _ _).mem_iff]
  simp only [List.mem_map, List.mem_filter, decide_eq_true_eq]
  constructor
  · rintro ⟨⟨e, b⟩, ⟨he, rfl⟩, rfl⟩
    exact he
  · intro h
    exact ⟨(d, a), ⟨h, rfl⟩, rfl⟩

variable {mesh coord uneven : List ℕ}

/-- The least element of a decreasing list comes last. -/
theorem filter_eq_append {l : List ℕ} {d : ℕ} {p : ℕ → Bool} (hl : l.Pairwise (· > ·))
    (hd : d ∈ l) (hp : ∀ e ∈ l, p e = true → d < e) :
    (l.filter fun e => e = d || p e) = l.filter p ++ [d] := by
  induction l with
  | nil => cases hd
  | cons c l ih =>
    obtain ⟨hc, hrest⟩ := List.pairwise_cons.1 hl
    rcases List.mem_cons.1 hd with rfl | hd
    · have hnone : ∀ e ∈ l, ¬ p e = true := by
        intro e he hpe
        have := hp e (List.mem_cons_of_mem _ he) hpe
        have := hc e he
        omega
      have hnot : ¬ p d = true := fun hpd => lt_irrefl _ (hp d List.mem_cons_self hpd)
      have hempty : l.filter p = [] := List.filter_eq_nil_iff.2 hnone
      have hempty' : (l.filter fun e => e = d || p e) = [] := by
        refine List.filter_eq_nil_iff.2 fun e he => ?_
        have hne : e ≠ d := by
          have := hc e he
          omega
        simp [hne, hnone e he]
      simp [hnot, hempty, hempty']
    · have hne : c ≠ d := by
        have := hc d hd
        omega
      have hrec := ih hrest hd fun e he => hp e (List.mem_cons_of_mem _ he)
      by_cases hpc : p c = true
      · rw [List.filter_cons, List.filter_cons, if_pos (by simp [hpc]), if_pos hpc, hrec]
        rfl
      · rw [List.filter_cons, List.filter_cons, if_neg (by simp [hne, hpc]), if_neg hpc, hrec]

end Shards

/-! ### Groups -/

section Peers

variable {mesh : Mesh} {d k v u : ℕ}

theorem valid_coordinate (hk : k < mesh.shape.prod) : Valid mesh.shape (mesh.coordinate k) := by
  rw [Mesh.coordinate_eq]
  exact valid_digits hk

theorem shardSize_eq (hd : d < mesh.shape.length) : shardSize mesh d = mesh.shape.getD d 0 := by
  rw [shardSize, List.getD_eq_getElem _ _ hd, List.getD_eq_getElem _ _ hd]

theorem valid_peer (hk : k < mesh.shape.prod) (hd : d < mesh.shape.length)
    (hv : v < shardSize mesh d) : Valid mesh.shape ((mesh.coordinate k).set d v) := by
  have h := (valid_coordinate hk).set_both (d := d) (b := v) hv
  rwa [shardSize_eq hd, set_getD_self hd] at h

theorem coordinate_peer (hk : k < mesh.shape.prod) (hd : d < mesh.shape.length)
    (hv : v < shardSize mesh d) :
    mesh.coordinate (peer mesh d k v) = (mesh.coordinate k).set d v :=
  Mesh.coordinate_ofDigits (valid_peer hk hd hv)

theorem peer_lt (hk : k < mesh.shape.prod) (hd : d < mesh.shape.length)
    (hv : v < shardSize mesh d) : peer mesh d k v < mesh.shape.prod :=
  ofDigits_lt (valid_peer hk hd hv)

theorem peer_peer (hk : k < mesh.shape.prod) (hd : d < mesh.shape.length)
    (hv : v < shardSize mesh d) : peer mesh d (peer mesh d k v) u = peer mesh d k u := by
  rw [peer, coordinate_peer hk hd hv, List.set_set]
  rfl

theorem coordinate_lt (hk : k < mesh.shape.prod) (hd : d < mesh.shape.length) :
    (mesh.coordinate k).getD d 0 < shardSize mesh d := by
  rw [shardSize_eq hd]
  exact ((valid_coordinate hk).split hd).2.2.1

theorem peer_self (hk : k < mesh.shape.prod) (hd : d < mesh.shape.length) :
    peer mesh d k ((mesh.coordinate k).getD d 0) = k := by
  have hlength : d < (mesh.coordinate k).length := by
    rwa [(valid_coordinate hk).length_eq]
  rw [peer, set_getD_self hlength, Mesh.coordinate_eq, ofDigits_digits, Nat.mod_eq_of_lt hk]

/-- Along the mesh dimensions of some axes the ranks ascend with the coordinate. -/
def Ascending (mesh : Mesh) (axes : List (ℕ × ℕ)) : Prop :=
  ∀ axis ∈ axes, ∀ k < mesh.shape.prod,
    ((List.range (shardSize mesh axis.1)).map (peer mesh axis.1 k)).Pairwise
      fun j j' => mesh.rankList.getD j 0 ≤ mesh.rankList.getD j' 0

theorem shardGroup_eq {axes : List (ℕ × ℕ)} (h : Ascending mesh axes) {axis : ℕ × ℕ}
    (haxis : axis ∈ axes) (hk : k < mesh.shape.prod) : shardGroup mesh axis.1 k =
      (List.range (shardSize mesh axis.1)).map (peer mesh axis.1 k) :=
  (h axis haxis k hk).insertionSort_eq

end Peers

/-! ### What a stage leaves -/

section Stages

variable {mesh : Mesh} {placements : List Placement} {axes rest : List (ℕ × ℕ)} {d a k : ℕ}
  {shape : List ℕ} {x : Tensor α}

/-- On every tensor dimension the mesh dimensions of more than one rank cut from the last to the
first. -/
def InnerFirst (mesh : Mesh) (placements : List Placement) (axes : List (ℕ × ℕ)) : Prop :=
  ∀ a, ((cutOrder placements axes a).filter fun d => 1 < mesh.shape.getD d 1).Pairwise (· > ·)

/-- The axes of a parameter on a mesh. -/
structure AxesOn (mesh : Mesh) (n : ℕ) (axes : List (ℕ × ℕ)) : Prop where
  sorted : axes.Pairwise fun e e' => e.1 < e'.1
  mesh_lt : ∀ e ∈ axes, e.1 < mesh.shape.length
  dim_lt : ∀ e ∈ axes, e.2 < n

theorem sliceOver_bounds {n : ℕ} (haxes : AxesOn mesh n axes) (remaining : List (ℕ × ℕ)) (b : ℕ) :
    (sliceOver mesh placements axes remaining shape k b).1 ≤
        (sliceOver mesh placements axes remaining shape k b).2 ∧
      (sliceOver mesh placements axes remaining shape k b).2 ≤ shape.getD b 0 := by
  have hcoord : IsCoordinate mesh.shape (mesh.coordinate k) := Mesh.isCoordinate_coordinate
  have h := foldl_cutSlice_bounds (unevenShardMeshDims placements)
    ((cutOrder placements axes b).filter (shards remaining b)) (0, shape.getD b 0) hcoord
    (fun d hd => haxes.mesh_lt (d, b) (mem_cutOrder.1 (List.mem_of_mem_filter hd)))
    (Nat.zero_le _)
  exact ⟨h.2.1, h.2.2⟩

/-- Mesh dimensions of size one may be left out. -/
theorem sliceOver_eq {n : ℕ} (haxes : AxesOn mesh n axes) (remaining : List (ℕ × ℕ)) :
    sliceOver mesh placements axes remaining shape k a =
      ((cutOrder placements axes a).filter fun e =>
        decide (1 < mesh.shape.getD e 1) && shards remaining a e).foldl
        (cutSlice mesh.shape (unevenShardMeshDims placements) (mesh.coordinate k))
        (0, shape.getD a 0) := by
  unfold sliceOver
  rw [← foldl_cutSlice_filter Mesh.isCoordinate_coordinate mesh.shape_pos (fun e he =>
    haxes.mesh_lt (e, a) (mem_cutOrder.1 (List.mem_of_mem_filter he))) (Nat.zero_le _),
    List.filter_filter]

/-- The slices over one axis more. -/
theorem sliceOver_cons {n : ℕ} (haxes : AxesOn mesh n axes)
    (hinner : InnerFirst mesh placements axes) (hmem : (d, a) ∈ axes)
    (hrest : ∀ e ∈ rest, e ∈ axes ∧ d < e.1) :
    sliceOver mesh placements axes ((d, a) :: rest) shape k a =
      cutSlice mesh.shape (unevenShardMeshDims placements) (mesh.coordinate k)
        (sliceOver mesh placements axes rest shape k a) d := by
  have hcoord : IsCoordinate mesh.shape (mesh.coordinate k) := Mesh.isCoordinate_coordinate
  have hbounds : (sliceOver mesh placements axes rest shape k a).1 ≤
      (sliceOver mesh placements axes rest shape k a).2 := (sliceOver_bounds haxes rest a).1
  have hd := haxes.mesh_lt _ hmem
  by_cases hsize : 1 < mesh.shape.getD d 1
  · have hlast := filter_eq_append (d := d) (p := fun e => shards rest a e) (hinner a)
      (List.mem_filter.2 ⟨mem_cutOrder.2 hmem, by simpa using hsize⟩)
      fun e _ he => (hrest (e, a) (shards_iff.1 he)).2
    rw [List.filter_filter, List.filter_filter] at hlast
    have hsplit : ((cutOrder placements axes a).filter fun e =>
        decide (1 < mesh.shape.getD e 1) && shards ((d, a) :: rest) a e) =
        ((cutOrder placements axes a).filter fun e =>
          decide (1 < mesh.shape.getD e 1) && shards rest a e) ++ [d] := by
      rw [List.filter_congr fun e _ => Bool.and_comm (decide (1 < mesh.shape.getD e 1))
        (shards rest a e), ← hlast]
      refine List.filter_congr fun e _ => ?_
      rw [Bool.and_comm]
      congr 1
      simp [shards, eq_comm]
    rw [sliceOver_eq haxes, hsplit, List.foldl_append, List.foldl_cons, List.foldl_nil,
      ← sliceOver_eq haxes]
  · have hone : mesh.shape.getD d 1 = 1 := by
      have := hcoord d hd
      omega
    rw [cutSlice_of_one hcoord hd hone hbounds, sliceOver_eq haxes, sliceOver_eq haxes]
    congr 1
    refine List.filter_congr fun e _ => ?_
    by_cases hed : e = d
    · rw [hed, decide_eq_false hsize, Bool.false_and, Bool.false_and]
    · congr 1
      simp [shards, Ne.symm hed]

theorem sliceOver_of_ne {b : ℕ} (hb : b ≠ a) :
    sliceOver mesh placements axes ((d, a) :: rest) shape k b =
      sliceOver mesh placements axes rest shape k b := by
  unfold sliceOver
  congr 1
  refine List.filter_congr fun e _ => ?_
  simp [shards, Ne.symm hb]

/-- The slices over the axes of other mesh dimensions are those of the whole group. -/
theorem sliceOver_peer (hk : k < mesh.shape.prod) (hd : d < mesh.shape.length) {v : ℕ}
    (hv : v < shardSize mesh d) (hrest : ∀ e ∈ rest, d < e.1) (b : ℕ) :
    sliceOver mesh placements axes rest shape (peer mesh d k v) b =
      sliceOver mesh placements axes rest shape k b := by
  unfold sliceOver
  rw [coordinate_peer hk hd hv]
  refine foldl_cutSlice_congr fun e he => ?_
  have hmem : (e, b) ∈ rest := shards_iff.1 (List.mem_filter.1 he).2
  exact getD_set_of_ne (Nat.ne_of_lt (hrest _ hmem))

/-- The lengths of the first pieces of a cut. -/
theorem sum_pieces {f : ℕ → ℕ × ℕ} {n size : ℕ} (hcut : IsCut f n size) {v : ℕ} (hv : v ≤ n) :
    ((List.range v).map fun u => (f u).2 - (f u).1).sum = hcut.bound v := by
  induction v with
  | zero => exact hcut.bound_zero.symm
  | succ v ih =>
    have hmono := hcut.mono (Nat.le_succ v)
    rw [List.range_succ, List.map_append, List.sum_append, ih (by omega), List.map_singleton,
      List.sum_singleton, hcut.piece v (by omega)]
    simp only [Nat.succ_eq_add_one] at hmono
    omega

theorem shape_shardOver (remaining : List (ℕ × ℕ)) (x : Tensor α) (k : ℕ) :
    (shardOver mesh placements axes remaining x k).shape = (List.range x.shape.length).map fun b =>
      (sliceOver mesh placements axes remaining x.shape k b).2 -
        (sliceOver mesh placements axes remaining x.shape k b).1 := rfl

theorem entry_shardOver {remaining : List (ℕ × ℕ)} {idx : List ℕ}
    (h : Valid (shardOver mesh placements axes remaining x k).shape idx) :
    (shardOver mesh placements axes remaining x k).entry idx =
      x.entry ((List.range x.shape.length).map fun b =>
        (sliceOver mesh placements axes remaining x.shape k b).1 + idx.getD b 0) :=
  Tensor.entry_ofEntries _ h

theorem getD_shape_shardOver (remaining : List (ℕ × ℕ)) {b : ℕ} (hb : b < x.shape.length) :
    (shardOver mesh placements axes remaining x k).shape.getD b 0 =
      (sliceOver mesh placements axes remaining x.shape k b).2 -
        (sliceOver mesh placements axes remaining x.shape k b).1 := by
  rw [shape_shardOver, List.getD_eq_getElem _ _ (by simpa using hb), List.getElem_map,
    List.getElem_range]

/-- The place of an axis in a parameter's gather: the axes behind it are of later mesh
dimensions. -/
structure AtAxis (mesh : Mesh) (placements : List Placement) (axes : List (ℕ × ℕ)) (n d a : ℕ)
    (rest : List (ℕ × ℕ)) : Prop where
  on : AxesOn mesh n axes
  inner : InnerFirst mesh placements axes
  ascending : Ascending mesh axes
  mem : (d, a) ∈ axes
  rest : ∀ e ∈ rest, e ∈ axes ∧ d < e.1

/-- The slice of a rank of the group along the axis. -/
theorem AtAxis.slice (h : AtAxis mesh placements axes x.shape.length d a rest)
    (hk : k < mesh.shape.prod) {v : ℕ} (hv : v < shardSize mesh d) :
    sliceOver mesh placements axes ((d, a) :: rest) x.shape (peer mesh d k v) a =
      let slice := sliceOver mesh placements axes rest x.shape k a
      let chunk := chunkRange mesh.shape (unevenShardMeshDims placements) d (slice.2 - slice.1) v
      (slice.1 + chunk.1, slice.1 + chunk.1 + chunk.2 - chunk.1) := by
  have hd := h.on.mesh_lt _ h.mem
  have hlength : d < (mesh.coordinate k).length := by
    rwa [(valid_coordinate hk).length_eq]
  rw [sliceOver_cons h.on h.inner h.mem h.rest,
    sliceOver_peer hk hd hv (fun e he => (h.rest e he).2), cutSlice, coordinate_peer hk hd hv,
    getD_set_self hlength]

/-- The pieces of the slice of a group. -/
theorem AtAxis.size (h : AtAxis mesh placements axes x.shape.length d a rest)
    (hk : k < mesh.shape.prod) {v : ℕ} (hv : v < shardSize mesh d) :
    (shardOver mesh placements axes ((d, a) :: rest) x (peer mesh d k v)).shape.getD a 0 =
      let slice := sliceOver mesh placements axes rest x.shape k a
      let chunk := chunkRange mesh.shape (unevenShardMeshDims placements) d (slice.2 - slice.1) v
      chunk.2 - chunk.1 := by
  rw [getD_shape_shardOver _ (h.on.dim_lt _ h.mem), h.slice hk hv]
  simp only
  omega

theorem AtAxis.shape_eq (h : AtAxis mesh placements axes x.shape.length d a rest)
    (hk : k < mesh.shape.prod) {v : ℕ} (hv : v < shardSize mesh d) :
    (shardOver mesh placements axes ((d, a) :: rest) x (peer mesh d k v)).shape =
      (shardOver mesh placements axes rest x k).shape.set a
        ((shardOver mesh placements axes ((d, a) :: rest) x (peer mesh d k v)).shape.getD a 0) := by
  have hd := h.on.mesh_lt _ h.mem
  apply List.ext_getElem
  · simp [shape_shardOver]
  · intro b hb hb'
    have hlt : b < x.shape.length := by simpa [shape_shardOver] using hb
    rw [List.getElem_set]
    split_ifs with hab
    · subst hab
      exact (List.getD_eq_getElem _ _ hb).symm
    · simp only [shape_shardOver, List.getElem_map, List.getElem_range]
      rw [sliceOver_of_ne (Ne.symm hab), sliceOver_peer hk hd hv fun e he => (h.rest e he).2]

/-- The cut of the slice of a group along the axis of a stage. -/
def stageCut (mesh : Mesh) (placements : List Placement) (axes rest : List (ℕ × ℕ))
    (shape : List ℕ) (d a k : ℕ) : ℕ → ℕ × ℕ :=
  chunkRange mesh.shape (unevenShardMeshDims placements) d
    ((sliceOver mesh placements axes rest shape k a).2 -
      (sliceOver mesh placements axes rest shape k a).1)

def AtAxis.isCut (h : AtAxis mesh placements axes x.shape.length d a rest) :
    IsCut (stageCut mesh placements axes rest x.shape d a k) (shardSize mesh d)
      ((sliceOver mesh placements axes rest x.shape k a).2 -
        (sliceOver mesh placements axes rest x.shape k a).1) :=
  have hcoord : IsCoordinate mesh.shape (mesh.coordinate k) := Mesh.isCoordinate_coordinate
  isCut_chunkRange (Nat.zero_lt_of_lt (hcoord d (h.on.mesh_lt _ h.mem)))

/-- The sizes of the group along the axis of a stage. -/
theorem AtAxis.sizes (h : AtAxis mesh placements axes x.shape.length d a rest)
    (hk : k < mesh.shape.prod) :
    ((shardGroup mesh d k).map fun j =>
      (shardOver mesh placements axes ((d, a) :: rest) x j).shape.getD a 0) =
      (List.range (shardSize mesh d)).map fun v =>
        (stageCut mesh placements axes rest x.shape d a k v).2 -
          (stageCut mesh placements axes rest x.shape d a k v).1 := by
  have hgroup := shardGroup_eq h.ascending h.mem hk
  simp only at hgroup
  rw [hgroup, List.map_map]
  exact List.map_congr_left fun v hv => h.size hk (List.mem_range.1 hv)

theorem AtAxis.sum_take (h : AtAxis mesh placements axes x.shape.length d a rest)
    (hk : k < mesh.shape.prod) {v : ℕ} (hv : v < shardSize mesh d) :
    (((shardGroup mesh d k).map fun j =>
      (shardOver mesh placements axes ((d, a) :: rest) x j).shape.getD a 0).take v).sum =
      (stageCut mesh placements axes rest x.shape d a k v).1 := by
  rw [h.sizes hk, ← List.map_take, List.take_range, Nat.min_eq_left (Nat.le_of_lt hv),
    sum_pieces h.isCut (Nat.le_of_lt hv), h.isCut.piece v hv]

theorem AtAxis.sum_sizes (h : AtAxis mesh placements axes x.shape.length d a rest)
    (hk : k < mesh.shape.prod) :
    ((shardGroup mesh d k).map fun j =>
      (shardOver mesh placements axes ((d, a) :: rest) x j).shape.getD a 0).sum =
      (shardOver mesh placements axes rest x k).shape.getD a 0 := by
  rw [h.sizes hk, sum_pieces h.isCut (le_refl _), h.isCut.bound_last,
    getD_shape_shardOver rest (h.on.dim_lt _ h.mem)]

theorem AtAxis.valid (h : AtAxis mesh placements axes x.shape.length d a rest)
    (hk : k < mesh.shape.prod) {v : ℕ} (hv : v < shardSize mesh d) {idx : List ℕ}
    (hvalid : Valid (shardOver mesh placements axes ((d, a) :: rest) x (peer mesh d k v)).shape
      idx) :
    Valid (shardOver mesh placements axes rest x k).shape
      (idx.set a ((stageCut mesh placements axes rest x.shape d a k v).1 + idx.getD a 0)) := by
  have ha := h.on.dim_lt _ h.mem
  have hbase : a < (shardOver mesh placements axes rest x k).shape.length := by
    simpa [shape_shardOver] using ha
  have hsize := h.size hk hv
  have hle := (h.isCut (k := k)).le_size hv
  rw [h.shape_eq hk hv] at hvalid
  have hat := (hvalid.split_set hbase).2.2.1
  have hlt : (stageCut mesh placements axes rest x.shape d a k v).1 + idx.getD a 0 <
      (shardOver mesh placements axes rest x k).shape.getD a 0 := by
    rw [hsize] at hat
    rw [getD_shape_shardOver rest ha]
    simp only [stageCut] at hle hat ⊢
    omega
  have hset := hvalid.set_both (d := a) hlt
  rwa [List.set_set, set_getD_self hbase] at hset

/-- An entry of a shard of the group, in the shard over the axes behind. -/
theorem AtAxis.entry (h : AtAxis mesh placements axes x.shape.length d a rest)
    (hk : k < mesh.shape.prod) {v : ℕ} (hv : v < shardSize mesh d) {idx : List ℕ}
    (hvalid : Valid (shardOver mesh placements axes ((d, a) :: rest) x (peer mesh d k v)).shape
      idx) :
    (shardOver mesh placements axes ((d, a) :: rest) x (peer mesh d k v)).entry idx =
      (shardOver mesh placements axes rest x k).entry
        (idx.set a ((stageCut mesh placements axes rest x.shape d a k v).1 + idx.getD a 0)) := by
  have hslice := h.slice hk hv
  have ha : a < idx.length := by
    rw [hvalid.length_eq]
    simpa [shape_shardOver] using h.on.dim_lt _ h.mem
  simp only at hslice
  rw [entry_shardOver hvalid, entry_shardOver (h.valid hk hv hvalid)]
  congr 1
  refine List.map_congr_left fun b hb => ?_
  by_cases hba : b = a
  · subst hba
    rw [hslice, getD_set_self ha]
    exact Nat.add_assoc _ _ _
  · rw [sliceOver_of_ne hba, sliceOver_peer hk (h.on.mesh_lt _ h.mem) hv fun e he => (h.rest e he).2,
      getD_set_of_ne (Ne.symm hba)]

/-- The shards of a group, put together along the axis of a stage, are the shard over the axes
behind it. -/
theorem AtAxis.whole (h : AtAxis mesh placements axes x.shape.length d a rest)
    (hk : k < mesh.shape.prod) :
    (Tensor.ofData
      (((shardGroup mesh d k).map fun j =>
        (shardOver mesh placements axes ((d, a) :: rest) x j).shape.getD a 0).sum ::
        ((shardOver mesh placements axes rest x k).shape.take a ++
          (shardOver mesh placements axes rest x k).shape.drop (a + 1)))
      ((((shardGroup mesh d k).map (shardOver mesh placements axes ((d, a) :: rest) x)).map
        (Tensor.moveFront a)).flatMap Tensor.data)).map (Tensor.moveBack a) =
      some (shardOver mesh placements axes rest x k) := by
  have ha := h.on.dim_lt _ h.mem
  have hbase : a < (shardOver mesh placements axes rest x k).shape.length := by
    simpa [shape_shardOver] using ha
  have hgroup := shardGroup_eq h.ascending h.mem hk
  simp only at hgroup
  have hparts : ∀ t ∈ (shardGroup mesh d k).map
      (shardOver mesh placements axes ((d, a) :: rest) x),
      t.shape = (shardOver mesh placements axes rest x k).shape.set a (t.shape.getD a 0) := by
    intro t ht
    rw [hgroup, List.map_map] at ht
    obtain ⟨v, hv, rfl⟩ := List.mem_map.1 ht
    exact h.shape_eq hk (List.mem_range.1 hv)
  have hsizes : Tensor.sizes a ((shardGroup mesh d k).map
      (shardOver mesh placements axes ((d, a) :: rest) x)) =
      (shardGroup mesh d k).map fun j =>
        (shardOver mesh placements axes ((d, a) :: rest) x j).shape.getD a 0 := by
    rw [Tensor.sizes, List.map_map]
    rfl
  obtain ⟨whole, hwhole, hshape, hentry⟩ := Tensor.cat_data hbase hparts
  rw [hsizes] at hwhole hshape hentry
  rw [hwhole, Option.map_some]
  rw [h.sum_sizes hk, set_getD_self hbase] at hshape hentry
  congr 1
  refine Tensor.ext_entry hshape ?_
  intro idx hidx
  rw [hshape] at hidx
  have hat := (hidx.split hbase).2.2.1
  rw [getD_shape_shardOver rest ha] at hat
  -- the rank of the group that has the row
  obtain ⟨v, hv, hlow, hhigh⟩ := (h.isCut (k := k)).exists_piece hat
  have hpart : ((shardGroup mesh d k).map
      (shardOver mesh placements axes ((d, a) :: rest) x))[v]? =
      some (shardOver mesh placements axes ((d, a) :: rest) x (peer mesh d k v)) := by
    rw [hgroup, List.map_map, List.getElem?_map, List.getElem?_range hv]
    rfl
  have hlt : idx.getD a 0 - (stageCut mesh placements axes rest x.shape d a k v).1 <
      (shardOver mesh placements axes ((d, a) :: rest) x (peer mesh d k v)).shape.getD a 0 := by
    rw [h.size hk hv]
    exact Nat.sub_lt_sub_right hlow hhigh
  rw [hentry v _ idx _ hpart hidx (by rw [h.sum_take hk hv]; omega) hlt]
  have hidxLength : a < idx.length := by
    rw [hidx.length_eq]
    exact hbase
  have hback : (idx.set a (idx.getD a 0 -
      (stageCut mesh placements axes rest x.shape d a k v).1)).set a
        ((stageCut mesh placements axes rest x.shape d a k v).1 + (idx.set a (idx.getD a 0 -
          (stageCut mesh placements axes rest x.shape d a k v).1)).getD a 0) = idx := by
    rw [getD_set_self hidxLength, List.set_set, Nat.add_sub_cancel' hlow, set_getD_self hidxLength]
  have hvalid : Valid (shardOver mesh placements axes ((d, a) :: rest) x (peer mesh d k v)).shape
      (idx.set a (idx.getD a 0 - (stageCut mesh placements axes rest x.shape d a k v).1)) := by
    rw [h.shape_eq hk hv]
    exact hidx.set_both hlt
  have hpiece := h.entry hk hv hvalid
  rw [hback] at hpiece
  exact hpiece

end Stages

end HyperParallel.Optimizer

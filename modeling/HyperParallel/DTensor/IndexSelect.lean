import HyperParallel.DTensor.Sharding
import Mathlib.Algebra.Ring.Defs

/-!
# Index select

`IndexSelectDistributedOp` of `core/shard/ops/parallel_gather.py`.

* `inferLayout`, `expandImpl`: the output layout and the local work of a rank;
* `Correct`: the local results represent the selection from the global tensor;
* `correct_iff`: they do when the rank's place in the communication group of the first axis is the
  number of its shard, and only then.
-/

open scoped BigOperators
open MixedRadix

namespace HyperParallel.DTensor.IndexSelect

variable {mesh : Mesh} {α : Type}

/-- What `infer_layout` raises. -/
inductive InferError
  /-- `input {i} with {layout} has Partial status which is not allowed.` -/
  | pendingInput (i : ℕ)
  /-- `dim value {axis} is out of valid range` -/
  | dimOutOfRange (axis : ℤ)
  /-- `index is not a one-dimensional Tensor` -/
  | indexNotOneDimensional
  | layout (e : LayoutError)
  /-- `Partial dim must be replicate.` -/
  | pendingDimSharded
  deriving DecidableEq

/-- A negative axis counts from the end. -/
def normalizeAxis (rank : ℕ) (axis : ℤ) : ℕ := (if axis < 0 then axis + rank else axis).toNat

/-- `IndexSelectDistributedOp.infer_layout` -/
def inferLayout (pLayout iLayout : Layout mesh) (axis : ℤ) : Except InferError (Layout mesh) :=
  if pLayout.isPartial then .error (.pendingInput 0)
  else if iLayout.isPartial then .error (.pendingInput 1)
  else
    let pTensorMap := pLayout.aliasTensorMap
    let iTensorMap := iLayout.aliasTensorMap
    if axis < -pTensorMap.length ∨ axis ≥ pTensorMap.length then .error (.dimOutOfRange axis)
    else if iTensorMap.length ≠ 1 then .error .indexNotOneDimensional
    else
      let axis := normalizeAxis pTensorMap.length axis
      match Layout.call mesh (pTensorMap.take axis ++ iTensorMap ++ pTensorMap.drop (axis + 1)) with
      | .error e => .error (.layout e)
      | .ok outputLayout =>
        -- one axis, or the axes of a tuple
        match (pTensorMap.getD axis (.name "None")).shardNames.foldlM
            (fun layout dimName => layout.setPartialByDevAxis dimName .sum) outputLayout with
        | none => .error .pendingDimSharded
        | some outputLayout => .ok outputLayout

/-- `index_select`, if every index is in range. -/
def indexSelect [Zero α] (input : Tensor α) (dim : ℕ) (index : Tensor ℤ) : Option (Tensor α) :=
  if ∀ t < index.shape.getD 0 0, 0 ≤ index.entry [t] ∧ index.entry [t] < input.shape.getD dim 0 then
    some (Tensor.ofEntries (input.shape.set dim (index.shape.getD 0 0)) fun idx =>
      input.entry (idx.set dim (index.entry [idx.getD dim 0]).toNat))
  else none

/-- The mask: the index falls between `start_idx` and `end_idx`. -/
def inChunk (groupRank localDimSize : ℕ) (index : ℤ) : Prop :=
  ((groupRank * localDimSize : ℕ) : ℤ) ≤ index ∧
    index < ((groupRank * localDimSize + localDimSize : ℕ) : ℤ)

instance (groupRank localDimSize : ℕ) (index : ℤ) : Decidable (inChunk groupRank localDimSize index) :=
  inferInstanceAs (Decidable (_ ∧ _))

/-- `expand_impl`, and the plain operator where `get_expand_impl` returns none. -/
def expandImpl [MulZeroOneClass α] (pLayout : Layout mesh) (axis k : ℕ) (input : Tensor α)
    (index : Tensor ℤ) : Option (Tensor α) :=
  let shardMeshDimName := pLayout.aliasTensorMap.getD axis (.name "None")
  if shardMeshDimName = .name "None" then indexSelect input axis index
  else
    match shardMeshDimName.shardNames with
    -- a tuple of "None" alone: `next` is exhausted
    | [] => none
    | targetDimName :: _ => do
      let groupRank := mesh.groupLocalRank (mesh.aliasName.idxOf targetDimName) k
      let localDimSize := input.shape.getD axis 0
      let startIdx := groupRank * localDimSize
      let safeIndex := Tensor.ofEntries index.shape fun idx =>
        min (max (index.entry idx - startIdx) 0) (localDimSize - 1)
      let localOut ← indexSelect input axis safeIndex
      return Tensor.ofEntries localOut.shape fun idx =>
        localOut.entry idx *
          if inChunk groupRank localDimSize (index.entry [idx.getD axis 0]) then 1 else 0

/-- The mask of a rank, which is on throughout where the dimension is not sharded. -/
def contributes (pLayout : Layout mesh) (axis k localDimSize : ℕ) (index : ℤ) : Prop :=
  match (pLayout.dims.getD axis []).head? with
  | none => True
  | some d => inChunk (mesh.groupLocalRank d k) localDimSize index

/-- The local results are, under the output layout, the selection from the global tensor, for all
evenly sharded tensors and all indices in range: among the ranks whose results are added up, only the
one that holds a row contributes it. -/
def Correct (α : Type) [Semiring α] (pLayout iLayout outLayout : Layout mesh) (axis : ℕ) : Prop :=
  ∀ (source : Tensor α) (index : Tensor ℤ) (y : Tensor α), pLayout.Even source.shape →
    iLayout.Even index.shape → indexSelect source axis index = some y →
    ∃ locals : ℕ → Tensor α,
      (∀ k < mesh.shape.prod, expandImpl pLayout axis k (pLayout.toLocal source k)
        (iLayout.toLocal index k) = some (locals k)) ∧ outLayout.Represents locals y ∧
      ∀ k, ∀ row < source.shape.getD axis 0, ∃ owner ∈ mesh.peers outLayout.pendingDims k,
        ∀ l ∈ mesh.peers outLayout.pendingDims k,
          (contributes pLayout axis l ((pLayout.toLocal source l).shape.getD axis 0) row ↔
            l = owner) ∧
          (((pLayout.area source.shape l).getD axis (0, 0)).1 ≤ row ∧
            row < ((pLayout.area source.shape l).getD axis (0, 0)).2 ↔ l = owner)

/-- The place of every rank in the group of the first axis is the number of its shard. -/
def Aligned (pLayout : Layout mesh) (axis : ℕ) : Prop :=
  pLayout.aliasTensorMap.getD axis (.name "None") = .name "None" ∨
    ∃ d ∈ (pLayout.dims.getD axis []).head?, ∀ k < mesh.shape.prod,
      mesh.groupLocalRank d k =
        shardIndex mesh.shape (mesh.coordinate k) (pLayout.dims.getD axis [])

/-! ### What is accepted -/

section Accepted

variable {pLayout iLayout outLayout : Layout mesh} {axis : ℤ}

theorem dims_getD (a : ℕ) : (pLayout.dims).getD a [] =
    (pLayout.aliasTensorMap.getD a (.name "None")).dims mesh.aliasName := by
  rw [Layout.dims]
  by_cases ha : a < pLayout.aliasTensorMap.length
  · rw [List.getD_eq_getElem _ _ (by simpa using ha), List.getElem_map, List.getD_eq_getElem _ _ ha]
  · rw [List.getD_eq_default _ _ (by simpa using ha), List.getD_eq_default _ _ (by omega)]
    rfl

theorem shardNames_mem (pLayout : Layout mesh) (a : ℕ) :
    ∀ name ∈ (pLayout.aliasTensorMap.getD a (.name "None")).shardNames, name ∈ mesh.aliasName := by
  intro name hname
  have hmem : mesh.aliasName.idxOf name ∈ pLayout.dims.getD a [] := by
    rw [dims_getD]
    exact List.mem_map_of_mem hname
  have hlt := pLayout.lt_of_mem_dims hmem
  rw [← mesh.length_aliasName] at hlt
  exact List.idxOf_lt_length_iff.1 hlt

/-- The output of an accepted selection: the entry of the index in the place of the axis, whose mesh
dimensions shard nothing and have a sum pending. -/
theorem of_inferLayout (h : inferLayout pLayout iLayout axis = .ok outLayout) :
    let a := normalizeAxis pLayout.aliasTensorMap.length axis
    a < pLayout.dims.length ∧ (∃ e, iLayout.dims = [e] ∧ outLayout.dims = pLayout.dims.set a e) ∧
      (∀ d ∈ pLayout.dims.getD a [], d ∉ outLayout.dims.flatten) ∧
      ∀ d, d ∈ outLayout.pendingDims ↔ d ∈ pLayout.dims.getD a [] := by
  intro a
  dsimp only [inferLayout] at h
  split_ifs at h with hp hi haxis hindex
  have ha : a < pLayout.aliasTensorMap.length := by
    change (if axis < 0 then axis + pLayout.aliasTensorMap.length else axis).toNat < _
    split_ifs <;> omega
  split at h
  · cases h
  · rename_i output hcall
    split at h
    · cases h
    · rename_i output' hrun
      cases h
      obtain ⟨halias, hpending⟩ := Layout.call_ok hcall
      obtain ⟨halias', hfree, hdims⟩ := Layout.foldlM_setPartialByDevAxis
        (shardNames_mem pLayout a) (by rw [hpending, List.length_replicate]) hrun
      obtain ⟨e, he⟩ := List.length_eq_one_iff.1 (not_not.1 hindex)
      have houtput : output.dims = pLayout.dims.set a (e.dims mesh.aliasName) := by
        rw [Layout.dims, halias, he, Layout.dims, ← List.map_set, List.set_eq_take_append_cons_drop,
          if_pos ha, List.append_assoc]
        rfl
      have hout : outLayout.dims = output.dims := by rw [Layout.dims, halias', ← Layout.dims]
      refine ⟨by simpa [Layout.dims] using ha, ⟨e.dims mesh.aliasName, by simp [Layout.dims, he],
        by rw [hout, houtput]⟩, ?_, ?_⟩
      · rw [hout, dims_getD]
        intro d hd
        obtain ⟨name, hname, rfl⟩ := List.mem_map.1 hd
        exact hfree name hname
      · intro d
        have hnone : d ∉ output.pendingDims := by
          intro hmem
          obtain ⟨hd, hsome⟩ := output.mem_pendingDims.1 hmem
          rw [hpending, List.getD_eq_getElem _ _ (by simpa using hd), List.getElem_replicate]
            at hsome
          cases hsome
        rw [hdims, dims_getD, or_iff_right hnone]
        rfl

end Accepted

/-! ### One entry of a local result -/

section Entry

variable [Semiring α] {pLayout iLayout outLayout : Layout mesh} {a k : ℕ} {source y : Tensor α}
  {index : Tensor ℤ} {e : List ℕ}

theorem indexSelect_isSome (input : Tensor α) (index : Tensor ℤ) (h : ∀ t < index.shape.getD 0 0,
    0 ≤ index.entry [t] ∧ index.entry [t] < input.shape.getD a 0) :
    indexSelect input a index = some (Tensor.ofEntries
      (input.shape.set a (index.shape.getD 0 0)) fun idx =>
        input.entry (idx.set a (index.entry [idx.getD a 0]).toNat)) := if_pos h

theorem of_indexSelect {input : Tensor α} (h : indexSelect input a index = some y) :
    (∀ t < index.shape.getD 0 0, 0 ≤ index.entry [t] ∧ index.entry [t] < input.shape.getD a 0) ∧
      y = Tensor.ofEntries (input.shape.set a (index.shape.getD 0 0)) fun idx =>
        input.entry (idx.set a (index.entry [idx.getD a 0]).toNat) := by
  unfold indexSelect at h
  split_ifs at h with hrange
  cases h
  exact ⟨hrange, rfl⟩

theorem shape_toLocal {β : Type} [Zero β] (layout : Layout mesh) (x : Tensor β) :
    (layout.toLocal x k).shape = areaShape (layout.area x.shape k) := rfl

theorem getD_areaShape {area : List (ℕ × ℕ)} (ha : a < area.length) :
    (areaShape area).getD a 0 = (area.getD a (0, 0)).2 - (area.getD a (0, 0)).1 := by
  rw [areaShape, List.getD_eq_getElem _ _ (by simpa using ha), List.getElem_map,
    List.getD_eq_getElem _ _ ha]

/-- The local index of a rank: a stretch of the global one. -/
theorem toLocal_index (hi : iLayout.dims = [e]) (heven : iLayout.Even index.shape) :
    ∃ m r, index.shape = [m] ∧ iLayout.area index.shape k = [r] ∧ r.2 ≤ m ∧
      ∀ t < r.2 - r.1, (iLayout.toLocal index k).entry [t] = index.entry [r.1 + t] := by
  have hlen := heven.length_eq
  rw [hi, List.length_singleton] at hlen
  obtain ⟨m, hm⟩ := List.length_eq_one_iff.1 hlen.symm
  obtain ⟨r, hr⟩ := List.length_eq_one_iff.1
    ((iLayout.length_area (k := k) (by rw [hi, hm]; rfl)).trans hlen.symm)
  have hwithin := iLayout.within_area (k := k) heven
  rw [hr, hm] at hwithin
  refine ⟨m, r, hm, hr, (List.forall₂_cons.1 hwithin).1, ?_⟩
  intro t ht
  have hvalid : Valid (areaShape [r]) [t] := .cons ht .nil
  rw [Layout.toLocal, hr, Tensor.entry_ofEntries _ hvalid]
  rfl

theorem shardNames_of_head {d : ℕ} (hd : (pLayout.dims.getD a []).head? = some d) :
    pLayout.aliasTensorMap.getD a (.name "None") ≠ .name "None" ∧
      ∃ target rest, (pLayout.aliasTensorMap.getD a (.name "None")).shardNames = target :: rest ∧
        mesh.aliasName.idxOf target = d := by
  rw [dims_getD, AliasEntry.dims, List.head?_map, Option.map_eq_some_iff] at hd
  obtain ⟨target, htarget, hidx⟩ := hd
  constructor
  · intro hnone
    rw [hnone] at htarget
    simp [AliasEntry.shardNames] at htarget
  · cases hnames : (pLayout.aliasTensorMap.getD a (.name "None")).shardNames with
    | nil =>
      rw [hnames] at htarget
      cases htarget
    | cons name names =>
      rw [hnames] at htarget
      cases htarget
      exact ⟨_, names, rfl, hidx⟩

/-- The size of a shard along the axis. -/
def localSize (pLayout : Layout mesh) (shape : List ℕ) (a : ℕ) : ℕ :=
  shape.getD a 0 / ((pLayout.dims.getD a []).map fun d => mesh.shape.getD d 1).prod

theorem getD_shape_toLocal (hp : pLayout.Even source.shape) (ha : a < source.shape.length) :
    (pLayout.toLocal source k).shape.getD a 0 = localSize pLayout source.shape a := by
  rw [shape_toLocal, getD_areaShape (by rwa [pLayout.length_area hp.length_eq]),
    pLayout.getD_area_even hp ha, Nat.add_sub_cancel_left]
  rfl

/-- What a rank computes where the dimension is sharded: the rows of its chunk, taken from its
shard. -/
theorem expandImpl_eq {d m : ℕ} {r : ℕ × ℕ} (hd : (pLayout.dims.getD a []).head? = some d)
    (hp : pLayout.Even source.shape) (ha : a < source.shape.length)
    (hr : iLayout.area index.shape k = [r]) (hle : r.2 ≤ m)
    (hlocal : ∀ t < r.2 - r.1, (iLayout.toLocal index k).entry [t] = index.entry [r.1 + t])
    (hrange : ∀ t < m, 0 ≤ index.entry [t] ∧ index.entry [t] < source.shape.getD a 0) :
    ∃ t, expandImpl pLayout a k (pLayout.toLocal source k) (iLayout.toLocal index k) = some t ∧
      t.shape = (areaShape (pLayout.area source.shape k)).set a (r.2 - r.1) ∧
      ∀ idx, Valid t.shape idx → t.entry idx =
        if inChunk (mesh.groupLocalRank d k) (localSize pLayout source.shape a)
          (index.entry [r.1 + idx.getD a 0]) then
          source.entry ((globalIndex (pLayout.area source.shape k) idx).set a
            (((pLayout.area source.shape k).getD a (0, 0)).1 +
              (index.entry [r.1 + idx.getD a 0] - (mesh.groupLocalRank d k *
                localSize pLayout source.shape a : ℕ)).toNat))
        else 0 := by
  obtain ⟨hne, target, rest, hnames, rfl⟩ := shardNames_of_head hd
  have hsize := getD_shape_toLocal (k := k) hp ha
  have hareaLength := pLayout.length_area (k := k) hp.length_eq
  have hindexShape : (iLayout.toLocal index k).shape = [r.2 - r.1] := by
    rw [shape_toLocal, hr]
    rfl
  have hpos : ∀ t < r.2 - r.1, 0 < localSize pLayout source.shape a := by
    intro t ht
    obtain ⟨h0, hlt⟩ := hrange (r.1 + t) (by omega)
    obtain ⟨q, hq⟩ := hp.dvd ha
    have hdims : 0 < ((pLayout.dims.getD a []).map fun d => mesh.shape.getD d 1).prod := by
      rcases Nat.eq_zero_or_pos ((pLayout.dims.getD a []).map fun d => mesh.shape.getD d 1).prod
        with h | h
      · rw [h, Nat.zero_mul] at hq
        omega
      · exact h
    exact Nat.div_pos (Nat.le_of_dvd (by omega) (hp.dvd ha)) hdims
  -- the clamped index is in range of the shard
  have hsafe : ∀ t < r.2 - r.1, (Tensor.ofEntries [r.2 - r.1] fun idx =>
      min (max ((iLayout.toLocal index k).entry idx - (mesh.groupLocalRank
        (mesh.aliasName.idxOf target) k * localSize pLayout source.shape a : ℕ)) 0)
        ((localSize pLayout source.shape a : ℕ) - 1)).entry [t] =
      min (max (index.entry [r.1 + t] - (mesh.groupLocalRank
        (mesh.aliasName.idxOf target) k * localSize pLayout source.shape a : ℕ)) 0)
        ((localSize pLayout source.shape a : ℕ) - 1) := by
    intro t ht
    have hvalid : Valid [r.2 - r.1] [t] := .cons ht .nil
    rw [Tensor.entry_ofEntries _ hvalid, hlocal t ht]
  have hselect := indexSelect_isSome (a := a) (pLayout.toLocal source k)
    (Tensor.ofEntries [r.2 - r.1] fun idx =>
      min (max ((iLayout.toLocal index k).entry idx - (mesh.groupLocalRank
        (mesh.aliasName.idxOf target) k * localSize pLayout source.shape a : ℕ)) 0)
        ((localSize pLayout source.shape a : ℕ) - 1)) (by
      intro t ht
      have hposition : t < r.2 - r.1 := ht
      have := hpos t hposition
      rw [hsafe t hposition, hsize]
      omega)
  rw [Tensor.shape_ofEntries, List.getD_cons_zero, shape_toLocal] at hselect
  simp only [expandImpl, if_neg hne, hnames, hindexShape, hsize]
  rw [hselect]
  refine ⟨_, rfl, rfl, ?_⟩
  intro idx hidx
  have hidx' : Valid ((areaShape (pLayout.area source.shape k)).set a (r.2 - r.1)) idx := hidx
  have ha' : a < (areaShape (pLayout.area source.shape k)).length := by
    rw [areaShape, List.length_map, hareaLength]
    exact ha
  obtain ⟨-, -, hposition, -⟩ := hidx'.split_set ha'
  have hidxa : a < idx.length := by
    have := hidx'.length_eq
    rw [List.length_set] at this
    omega
  refine (Tensor.entry_ofEntries _ hidx).trans ?_
  rw [hlocal _ hposition, Tensor.entry_ofEntries _ hidx', hsafe _ hposition]
  split_ifs with hchunk
  · -- the clamping leaves an index of the chunk alone
    obtain ⟨hlow, hhigh⟩ := hchunk
    have hclamp : min (max (index.entry [r.1 + idx.getD a 0] - (mesh.groupLocalRank
        (mesh.aliasName.idxOf target) k * localSize pLayout source.shape a : ℕ)) 0)
        ((localSize pLayout source.shape a : ℕ) - 1) =
        index.entry [r.1 + idx.getD a 0] - (mesh.groupLocalRank
          (mesh.aliasName.idxOf target) k * localSize pLayout source.shape a : ℕ) := by omega
    have hrow : (index.entry [r.1 + idx.getD a 0] - (mesh.groupLocalRank
        (mesh.aliasName.idxOf target) k * localSize pLayout source.shape a : ℕ)).toNat <
        (areaShape (pLayout.area source.shape k)).getD a 0 := by
      rw [← shape_toLocal, hsize]
      omega
    have hvalid := hidx'.set_index ha' hrow
    rw [mul_one, hclamp, Layout.toLocal, Tensor.entry_ofEntries _ hvalid]
    have hself : (pLayout.area source.shape k).set a
        ((pLayout.area source.shape k).getD a (0, 0)) = pLayout.area source.shape k := by
      rw [List.getD_eq_getElem _ _ (by rwa [hareaLength]), List.set_getElem_self]
    rw [← globalIndex_set, hself]
  · rw [mul_zero]

/-- The shards of the selection from the global tensor. -/
theorem entry_toLocal_select {m : ℕ} {r : ℕ × ℕ} (hout : outLayout.dims = pLayout.dims.set a e)
    (hi : iLayout.dims = [e]) (hp : pLayout.Even source.shape) (ha : a < source.shape.length)
    (hshape : index.shape = [m]) (hr : iLayout.area index.shape k = [r]) (hle : r.2 ≤ m)
    (hy : indexSelect source a index = some y) :
    (outLayout.toLocal y k).shape =
        (areaShape (pLayout.area source.shape k)).set a (r.2 - r.1) ∧
      ∀ idx, Valid ((areaShape (pLayout.area source.shape k)).set a (r.2 - r.1)) idx →
        (outLayout.toLocal y k).entry idx =
          source.entry ((globalIndex (pLayout.area source.shape k) idx).set a
            (index.entry [r.1 + idx.getD a 0]).toNat) := by
  obtain ⟨-, rfl⟩ := of_indexSelect hy
  have hareaLength := pLayout.length_area (k := k) hp.length_eq
  have hcut : r = e.foldl (cutSlice mesh.shape [] (mesh.coordinate k)) (0, m) := by
    rw [Layout.area_eq, hi, hshape] at hr
    exact (List.singleton_inj.1 hr).symm
  have harea : outLayout.area (source.shape.set a m) k = (pLayout.area source.shape k).set a r := by
    rw [Layout.area_eq, hout, zipWith_set, ← hcut, Layout.area_eq]
  have hyshape : outLayout.area (Tensor.ofEntries (source.shape.set a (index.shape.getD 0 0))
      fun idx => source.entry (idx.set a (index.entry [idx.getD a 0]).toNat)).shape k =
      (pLayout.area source.shape k).set a r := by
    rw [Tensor.shape_ofEntries, hshape]
    exact harea
  have hareaShape : areaShape ((pLayout.area source.shape k).set a r) =
      (areaShape (pLayout.area source.shape k)).set a (r.2 - r.1) := by
    rw [areaShape, areaShape, List.map_set]
  refine ⟨by rw [shape_toLocal, hyshape, hareaShape], ?_⟩
  intro idx hidx
  have hidxa : a < idx.length := by
    have := hidx.length_eq
    rw [List.length_set, areaShape, List.length_map, hareaLength] at this
    omega
  have hwithin : Box.Within ((pLayout.area source.shape k).set a r) (source.shape.set a m) :=
    within_set (pLayout.within_area hp) hle
  have hvalid := valid_globalIndex hwithin (by rwa [hareaShape])
  have hself : idx.set a (idx.getD a 0) = idx := set_getD_self hidxa
  have hglobal : globalIndex ((pLayout.area source.shape k).set a r) idx =
      (globalIndex (pLayout.area source.shape k) idx).set a (r.1 + idx.getD a 0) := by
    conv_lhs => rw [← hself]
    exact globalIndex_set _ _ _ _ _
  have hlength : a < (globalIndex (pLayout.area source.shape k) idx).length := by
    rw [globalIndex, List.length_zipWith, hareaLength]
    omega
  rw [Layout.toLocal, hyshape, Tensor.entry_ofEntries _ (by rwa [hareaShape]), hshape,
    List.getD_cons_zero, Tensor.entry_ofEntries _ hvalid, hglobal, List.set_set, getD_set_self hlength]

theorem globalIndex_area_set (area : List (ℕ × ℕ)) (idx : List ℕ) (w : ℕ) :
    (globalIndex area idx).set a w = globalIndex (area.set a (w, w)) (idx.set a 0) :=
  (globalIndex_set area idx a 0 (w, w)).symm

/-- What a rank computes where the dimension is not sharded. -/
theorem expandImpl_plain {m : ℕ} {r : ℕ × ℕ}
    (hnone : pLayout.aliasTensorMap.getD a (.name "None") = .name "None")
    (hp : pLayout.Even source.shape) (ha : a < source.shape.length)
    (hr : iLayout.area index.shape k = [r]) (hle : r.2 ≤ m)
    (hlocal : ∀ t < r.2 - r.1, (iLayout.toLocal index k).entry [t] = index.entry [r.1 + t])
    (hrange : ∀ t < m, 0 ≤ index.entry [t] ∧ index.entry [t] < source.shape.getD a 0) :
    ∃ t, expandImpl pLayout a k (pLayout.toLocal source k) (iLayout.toLocal index k) = some t ∧
      t.shape = (areaShape (pLayout.area source.shape k)).set a (r.2 - r.1) ∧
      ∀ idx, Valid t.shape idx → t.entry idx =
        source.entry ((globalIndex (pLayout.area source.shape k) idx).set a
          (index.entry [r.1 + idx.getD a 0]).toNat) := by
  have hdims : pLayout.dims.getD a [] = [] := by
    rw [dims_getD, hnone]
    rfl
  have hareaLength := pLayout.length_area (k := k) hp.length_eq
  have harea : (pLayout.area source.shape k).getD a (0, 0) = (0, source.shape.getD a 0) := by
    rw [pLayout.getD_area hp.length_eq ha, hdims]
    rfl
  have hindexShape : (iLayout.toLocal index k).shape = [r.2 - r.1] := by
    rw [shape_toLocal, hr]
    rfl
  have hsize : (pLayout.toLocal source k).shape.getD a 0 = source.shape.getD a 0 := by
    rw [shape_toLocal, getD_areaShape (by rwa [hareaLength]), harea]
    rfl
  have hselect := indexSelect_isSome (a := a) (pLayout.toLocal source k)
    (iLayout.toLocal index k) (by
      intro t ht
      rw [hindexShape] at ht
      have hposition : t < r.2 - r.1 := ht
      rw [hlocal t hposition, hsize]
      exact hrange _ (by omega))
  rw [hindexShape, List.getD_cons_zero, shape_toLocal] at hselect
  rw [expandImpl, if_pos hnone, hselect]
  refine ⟨_, rfl, rfl, ?_⟩
  intro idx hidx
  have hidx' : Valid ((areaShape (pLayout.area source.shape k)).set a (r.2 - r.1)) idx := hidx
  have ha' : a < (areaShape (pLayout.area source.shape k)).length := by
    rw [areaShape, List.length_map, hareaLength]
    exact ha
  obtain ⟨-, -, hposition, -⟩ := hidx'.split_set ha'
  have hrow : (index.entry [r.1 + idx.getD a 0]).toNat <
      (areaShape (pLayout.area source.shape k)).getD a 0 := by
    have := hrange (r.1 + idx.getD a 0) (by omega)
    rw [← shape_toLocal, hsize]
    omega
  have hself : (pLayout.area source.shape k).set a (0, source.shape.getD a 0) =
      pLayout.area source.shape k := by
    rw [← harea, List.getD_eq_getElem _ _ (by rwa [hareaLength]), List.set_getElem_self]
  have hglobal := globalIndex_set (pLayout.area source.shape k) idx a
    (index.entry [r.1 + idx.getD a 0]).toNat (0, source.shape.getD a 0)
  rw [hself, Nat.zero_add] at hglobal
  rw [Tensor.entry_ofEntries _ hidx', hlocal _ hposition, Layout.toLocal,
    Tensor.entry_ofEntries _ (hidx'.set_index ha' hrow), hglobal]

end Entry

/-! ### Among the ranks that are added up -/

section Peers

variable {pLayout iLayout outLayout : Layout mesh} {a k l : ℕ} {e : List ℕ}

theorem peer_area (hout : outLayout.dims = pLayout.dims.set a e)
    (hfree : ∀ d ∈ pLayout.dims.getD a [], d ∉ outLayout.dims.flatten)
    (hl : l ∈ mesh.peers (pLayout.dims.getD a []) k) (shape : List ℕ) (r : ℕ × ℕ) :
    (pLayout.area shape l).set a r = (pLayout.area shape k).set a r := by
  refine pLayout.area_set_congr ?_ r
  intro b hb hba d hd
  have hbout : b < outLayout.dims.length := by rwa [hout, List.length_set]
  have hsame : outLayout.dims.getD b [] = pLayout.dims.getD b [] := by
    rw [hout, List.getD_eq_getElem?_getD, List.getElem?_set_ne (Ne.symm hba),
      List.getD_eq_getElem?_getD]
  refine (Mesh.mem_peers.1 hl).2 d (pLayout.lt_of_mem_dims hd) ?_
  intro hda
  exact hfree d hda (outLayout.getD_dims_subset (hsame ▸ hd))

theorem peer_index_area (hout : outLayout.dims = pLayout.dims.set a e) (ha : a < pLayout.dims.length)
    (hi : iLayout.dims = [e]) (hfree : ∀ d ∈ pLayout.dims.getD a [], d ∉ outLayout.dims.flatten)
    (hl : l ∈ mesh.peers (pLayout.dims.getD a []) k) (m : ℕ) :
    iLayout.area [m] l = iLayout.area [m] k := by
  have he : outLayout.dims.getD a [] = e := by
    rw [hout, List.getD_eq_getElem _ _ (by simpa using ha), List.getElem_set_self]
  rw [Layout.area_eq, Layout.area_eq, hi]
  refine congrArg (fun s => [s]) (foldl_cutSlice_congr ?_)
  intro d hd
  rw [← he] at hd
  refine (Mesh.mem_peers.1 hl).2 d (outLayout.lt_of_mem_dims hd) ?_
  intro hda
  exact hfree d hda (outLayout.getD_dims_subset hd)

theorem self_mem_peers (dims : List ℕ) (hk : k < mesh.shape.prod) : k ∈ mesh.peers dims k :=
  Mesh.mem_peers.2 ⟨hk, fun _ _ _ => rfl⟩

/-- The shape of a result is that of its peers. -/
theorem peer_areaShape (hout : outLayout.dims = pLayout.dims.set a e)
    (hfree : ∀ d ∈ pLayout.dims.getD a [], d ∉ outLayout.dims.flatten)
    (hl : l ∈ mesh.peers (pLayout.dims.getD a []) k) (shape : List ℕ) (n : ℕ) :
    (areaShape (pLayout.area shape l)).set a n = (areaShape (pLayout.area shape k)).set a n := by
  have hset := congrArg areaShape (peer_area hout hfree hl shape (0, n))
  simpa only [areaShape, List.map_set, Nat.sub_zero] using hset

theorem peer_globalIndex (hout : outLayout.dims = pLayout.dims.set a e)
    (hfree : ∀ d ∈ pLayout.dims.getD a [], d ∉ outLayout.dims.flatten)
    (hl : l ∈ mesh.peers (pLayout.dims.getD a []) k) (shape idx : List ℕ) (w : ℕ) :
    (globalIndex (pLayout.area shape l) idx).set a w =
      (globalIndex (pLayout.area shape k) idx).set a w := by
  rw [globalIndex_area_set, globalIndex_area_set, peer_area hout hfree hl]

end Peers

/-! ### When the ranks agree on the owners -/

section Main

variable [Semiring α] {pLayout iLayout outLayout : Layout mesh} {axis : ℤ} {a k : ℕ}
  {source y : Tensor α} {index : Tensor ℤ} {e : List ℕ}

/-- The slice of a rank holds a row. -/
def Holds (pLayout : Layout mesh) (shape : List ℕ) (a k row : ℕ) : Prop :=
  ((pLayout.area shape k).getD a (0, 0)).1 ≤ row ∧ row < ((pLayout.area shape k).getD a (0, 0)).2

instance (pLayout : Layout mesh) (shape : List ℕ) (a k row : ℕ) :
    Decidable (Holds pLayout shape a k row) := inferInstanceAs (Decidable (_ ∧ _))

theorem inChunk_iff_holds {d : ℕ} {shape : List ℕ} (hp : pLayout.Even shape) (ha : a < shape.length)
    (hrank : mesh.groupLocalRank d k =
      shardIndex mesh.shape (mesh.coordinate k) (pLayout.dims.getD a [])) (row : ℕ) :
    inChunk (mesh.groupLocalRank d k) (localSize pLayout shape a) row ↔
      Holds pLayout shape a k row := by
  rw [Holds, pLayout.getD_area_even hp ha, inChunk, hrank, Nat.cast_le, Nat.cast_lt]
  rfl

/-- Where the ranks are aligned, a rank returns the rows it holds. -/
theorem expandImpl_of_aligned {m : ℕ} {r : ℕ × ℕ} (hal : Aligned pLayout a)
    (hk : k < mesh.shape.prod) (hp : pLayout.Even source.shape) (ha : a < source.shape.length)
    (hr : iLayout.area index.shape k = [r]) (hle : r.2 ≤ m)
    (hlocal : ∀ t < r.2 - r.1, (iLayout.toLocal index k).entry [t] = index.entry [r.1 + t])
    (hrange : ∀ t < m, 0 ≤ index.entry [t] ∧ index.entry [t] < source.shape.getD a 0) :
    ∃ t, expandImpl pLayout a k (pLayout.toLocal source k) (iLayout.toLocal index k) = some t ∧
      t.shape = (areaShape (pLayout.area source.shape k)).set a (r.2 - r.1) ∧
      ∀ idx, Valid t.shape idx → t.entry idx =
        if Holds pLayout source.shape a k (index.entry [r.1 + idx.getD a 0]).toNat then
          source.entry ((globalIndex (pLayout.area source.shape k) idx).set a
            (index.entry [r.1 + idx.getD a 0]).toNat)
        else 0 := by
  have hareaLength := pLayout.length_area (k := k) hp.length_eq
  have ha' : a < (areaShape (pLayout.area source.shape k)).length := by
    rw [areaShape, List.length_map, hareaLength]
    exact ha
  rcases hal with hnone | ⟨d, hd, halign⟩
  · obtain ⟨t, ht, hshape, hentry⟩ := expandImpl_plain hnone hp ha hr hle hlocal hrange
    refine ⟨t, ht, hshape, ?_⟩
    intro idx hidx
    rw [hentry idx hidx, if_pos]
    rw [hshape] at hidx
    obtain ⟨-, -, hposition, -⟩ := hidx.split_set ha'
    have hrow := hrange (r.1 + idx.getD a 0) (by omega)
    rw [Holds, pLayout.getD_area hp.length_eq ha, dims_getD, hnone]
    exact ⟨Nat.zero_le _, by
      change (index.entry [r.1 + idx.getD a 0]).toNat < source.shape.getD a 0
      omega⟩
  · obtain ⟨t, ht, hshape, hentry⟩ := expandImpl_eq hd hp ha hr hle hlocal hrange
    refine ⟨t, ht, hshape, ?_⟩
    intro idx hidx
    rw [hentry idx hidx]
    rw [hshape] at hidx
    obtain ⟨-, -, hposition, -⟩ := hidx.split_set ha'
    obtain ⟨h0, -⟩ := hrange (r.1 + idx.getD a 0) (by omega)
    obtain ⟨row, hrow⟩ := Int.eq_ofNat_of_zero_le h0
    have hchunk := inChunk_iff_holds hp ha (halign k hk) row
    rw [hrow, Int.toNat_natCast]
    by_cases hholds : Holds pLayout source.shape a k row
    · rw [if_pos (hchunk.2 hholds), if_pos hholds]
      congr 2
      rw [Holds] at hholds
      rw [pLayout.getD_area_even hp ha] at hholds ⊢
      rw [halign k hk, localSize]
      simp only at hholds ⊢
      omega
    · rw [if_neg fun h => hholds (hchunk.1 h), if_neg hholds]

theorem correct_of_aligned (h : inferLayout pLayout iLayout axis = .ok outLayout)
    (hal : Aligned pLayout (normalizeAxis pLayout.aliasTensorMap.length axis)) :
    Correct α pLayout iLayout outLayout (normalizeAxis pLayout.aliasTensorMap.length axis) := by
  intro source index y hp heven hy
  obtain ⟨ha, ⟨e, hi, hout⟩, hfree, hpending⟩ := of_inferLayout h
  generalize normalizeAxis pLayout.aliasTensorMap.length axis = a at *
  rw [hp.length_eq] at ha
  obtain ⟨hrange, -⟩ := of_indexSelect hy
  have hpeers : ∀ k, mesh.peers outLayout.pendingDims k = mesh.peers (pLayout.dims.getD a []) k := by
    intro k
    simp only [Mesh.peers, hpending]
  -- every rank has a result
  have hlocals : ∀ k < mesh.shape.prod, ∃ (m : ℕ) (r : ℕ × ℕ) (t : Tensor α), index.shape = [m] ∧
      iLayout.area index.shape k = [r] ∧ r.2 ≤ m ∧
      expandImpl pLayout a k (pLayout.toLocal source k) (iLayout.toLocal index k) = some t ∧
      t.shape = (areaShape (pLayout.area source.shape k)).set a (r.2 - r.1) ∧
      ∀ idx, Valid t.shape idx → t.entry idx =
        if Holds pLayout source.shape a k (index.entry [r.1 + idx.getD a 0]).toNat then
          source.entry ((globalIndex (pLayout.area source.shape k) idx).set a
            (index.entry [r.1 + idx.getD a 0]).toNat)
        else 0 := by
    intro k hk
    obtain ⟨m, r, hm, hr, hle, hlocal⟩ := toLocal_index (k := k) hi heven
    rw [hm] at hrange
    obtain ⟨t, ht⟩ := expandImpl_of_aligned hal hk hp ha hr hle hlocal hrange
    exact ⟨m, r, t, hm, hr, hle, ht⟩
  choose! m r locals hm hr hle hresult hshape hentry using hlocals
  refine ⟨locals, hresult, ⟨?_, ?_⟩, ?_⟩
  · intro k hk
    rw [hshape k hk, (entry_toLocal_select hout hi hp ha (hm k hk) (hr k hk) (hle k hk) hy).1]
  · intro k hk idx hidx
    rw [hshape k hk] at hidx
    obtain ⟨-, hexpected⟩ :=
      entry_toLocal_select hout hi hp ha (hm k hk) (hr k hk) (hle k hk) hy
    rw [hexpected idx hidx, hpeers]
    have hareaLength := pLayout.length_area (k := k) hp.length_eq
    obtain ⟨-, -, hposition, -⟩ := hidx.split_set
      (by rw [areaShape, List.length_map, hareaLength]; exact ha)
    have hrow : (index.entry [(r k).1 + idx.getD a 0]).toNat < source.shape.getD a 0 := by
      have hposition' := hle k hk
      have := hrange ((r k).1 + idx.getD a 0) (by
        rw [hm k hk, List.getD_cons_zero]
        omega)
      omega
    obtain ⟨owner, howner, hunique⟩ := Mesh.existsUnique_peer pLayout.nodup_getD_dims
      (fun d hd => pLayout.lt_of_mem_dims hd) hrow k
    -- a peer adds the row if it holds it, and nothing otherwise
    have hterm : ∀ l ∈ mesh.peers (pLayout.dims.getD a []) k, (locals l).entry idx =
        if l = owner then source.entry ((globalIndex (pLayout.area source.shape k) idx).set a
          (index.entry [(r k).1 + idx.getD a 0]).toNat) else 0 := by
      intro l hl
      obtain ⟨hlprod, -⟩ := Mesh.mem_peers.1 hl
      have hsame : r l = r k := by
        have hlarea := hr l hlprod
        have hkarea := hr k hk
        rw [hm k hk] at hlarea hkarea
        rw [peer_index_area hout (by rwa [hp.length_eq]) hi hfree hl, hkarea] at hlarea
        exact (List.singleton_inj.1 hlarea).symm
      have hvalid : Valid (locals l).shape idx := by
        rw [hshape l hlprod, hsame, peer_areaShape hout hfree hl]
        exact hidx
      have hholds : Holds pLayout source.shape a l
          (index.entry [(r k).1 + idx.getD a 0]).toNat ↔ l = owner := by
        rw [Holds, pLayout.getD_area hp.length_eq ha]
        exact hunique l hl
      rw [hentry l hlprod idx hvalid, hsame, peer_globalIndex hout hfree hl]
      exact if_congr hholds rfl rfl
    rw [Finset.sum_congr rfl hterm, Finset.sum_ite_eq' _ owner, if_pos howner]
  · intro k row hrow
    rw [hpeers]
    obtain ⟨owner, howner, hunique⟩ := Mesh.existsUnique_peer pLayout.nodup_getD_dims
      (fun d hd => pLayout.lt_of_mem_dims hd) hrow k
    refine ⟨owner, howner, ?_⟩
    intro l hl
    obtain ⟨hlprod, -⟩ := Mesh.mem_peers.1 hl
    have hholds : Holds pLayout source.shape a l row ↔ l = owner := by
      rw [Holds, pLayout.getD_area hp.length_eq ha]
      exact hunique l hl
    refine ⟨?_, hholds⟩
    rw [getD_shape_toLocal hp ha, contributes]
    rcases hal with hnone | ⟨d, hd, halign⟩
    · have hdims : pLayout.dims.getD a [] = [] := by
        rw [dims_getD, hnone]
        rfl
      rw [← hholds, Holds, pLayout.getD_area hp.length_eq ha, hdims]
      simpa using hrow
    · rw [Option.mem_def] at hd
      rw [hd]
      exact (inChunk_iff_holds hp ha (halign l hlprod) row).trans hholds

end Main

/-! ### Only then -/

section Only

variable {pLayout iLayout outLayout : Layout mesh} {a k d : ℕ}

/-- The smallest shape that a layout shards evenly. -/
def unitShape (layout : Layout mesh) : List ℕ :=
  layout.dims.map fun ds => (ds.map fun d => mesh.shape.getD d 1).prod

theorem even_unitShape (layout : Layout mesh) : layout.Even (unitShape layout) := by
  rw [Layout.even_iff, unitShape, List.forall₂_map_right_iff]
  exact List.forall₂_same.2 fun _ _ => Nat.dvd_refl _

theorem getD_unitShape (layout : Layout mesh) (ha : a < layout.dims.length) :
    (unitShape layout).getD a 0 =
      ((layout.dims.getD a []).map fun d => mesh.shape.getD d 1).prod := by
  rw [unitShape, List.getD_eq_getElem _ _ (by simpa using ha), List.getElem_map,
    List.getD_eq_getElem _ _ ha]

/-- Every shard of it has one element. -/
theorem areaShape_unitShape (layout : Layout mesh) (k : ℕ) :
    areaShape (layout.area (unitShape layout) k) = List.replicate layout.dims.length 1 := by
  have hlength : (layout.area (unitShape layout) k).length = layout.dims.length := by
    rw [layout.length_area (even_unitShape layout).length_eq, (even_unitShape layout).length_eq]
  apply List.ext_getElem
  · rw [areaShape, List.length_map, hlength, List.length_replicate]
  · intro b hb hb'
    have hbd : b < layout.dims.length := by simpa using hb'
    have harea := layout.getD_area_even (k := k) (even_unitShape layout)
      (a := b) (by rwa [← (even_unitShape layout).length_eq])
    have hpos := prod_pos_of_dims mesh (layout.dims.getD b [])
      fun d hd => layout.lt_of_mem_dims hd
    have hget : (areaShape (layout.area (unitShape layout) k)).getD b 0 = _ :=
      getD_areaShape (by rwa [hlength])
    rw [harea, Nat.add_sub_cancel_left, getD_unitShape layout hbd, Nat.div_self hpos,
      List.getD_eq_getElem _ _ hb] at hget
    rw [hget, List.getElem_replicate]

theorem groupLocalRank_lt (hd : d < mesh.shape.length) (hk : k < mesh.shape.prod) :
    mesh.groupLocalRank d k < mesh.shape.getD d 1 := by
  have hmem : mesh.rankList.getD k 0 ∈ mesh.ranksAlong d k := by
    refine List.mem_map.2 ⟨(mesh.coordinate k).getD d 0,
      List.mem_range.2 (Mesh.isCoordinate_coordinate d hd), ?_⟩
    have hself : (mesh.coordinate k).set d ((mesh.coordinate k).getD d 0) = mesh.coordinate k :=
      set_getD_self (by rw [Mesh.coordinate_eq]; simpa using hd)
    rw [hself, Mesh.coordinate_eq, ofDigits_digits, Nat.mod_eq_of_lt hk]
  have hlt := List.idxOf_lt_length_iff.2 ((List.mem_insertionSort (· ≤ ·)).2 hmem)
  rwa [List.length_insertionSort, Mesh.ranksAlong, List.length_map, List.length_range] at hlt

variable [Semiring α] {axis : ℤ}

/-- A source with ones in one row, and an index that asks for one row everywhere. -/
def oneRow (pLayout : Layout mesh) (a row : ℕ) : Tensor α :=
  Tensor.ofEntries (unitShape pLayout) fun g => if g.getD a 0 = row then 1 else 0

def askFor (iLayout : Layout mesh) (row : ℕ) : Tensor ℤ :=
  Tensor.ofEntries (unitShape iLayout) fun _ => row

theorem valid_zeros (n : ℕ) : Valid (List.replicate n 1) (List.replicate n 0) := by
  refine List.forall₂_iff_get.2 ⟨by simp, ?_⟩
  intro i hi hi'
  simp

theorem entry_oneRow {row b : ℕ} (ha : a < pLayout.dims.length) {idx : List ℕ}
    (hidx : Valid (List.replicate pLayout.dims.length 1) idx)
    (hb : b < (unitShape pLayout).getD a 0) :
    (oneRow (α := α) pLayout a row).entry
      ((globalIndex (pLayout.area (unitShape pLayout) k) idx).set a b) =
      if b = row then 1 else 0 := by
  have hlength : (unitShape pLayout).length = pLayout.dims.length :=
    (even_unitShape pLayout).length_eq.symm
  have hglobal := valid_globalIndex (pLayout.within_area (k := k) (even_unitShape pLayout))
    (by rwa [areaShape_unitShape])
  have hvalid := hglobal.set_both (d := a) hb
  rw [set_getD_self (by omega)] at hvalid
  rw [oneRow, Tensor.entry_ofEntries _ hvalid, getD_set_self (by rw [hglobal.length_eq]; omega)]

/-- The shards of one element each are numbered by their rows. -/
theorem getD_area_unitShape (ha : a < pLayout.dims.length) (k : ℕ) :
    (pLayout.area (unitShape pLayout) k).getD a (0, 0) =
      (shardIndex mesh.shape (mesh.coordinate k) (pLayout.dims.getD a []),
        shardIndex mesh.shape (mesh.coordinate k) (pLayout.dims.getD a []) + 1) := by
  have hpos := prod_pos_of_dims mesh (pLayout.dims.getD a [])
    fun d hd => pLayout.lt_of_mem_dims hd
  rw [pLayout.getD_area_even (even_unitShape pLayout)
    (by rwa [← (even_unitShape pLayout).length_eq]), getD_unitShape pLayout ha, Nat.div_self hpos,
    Nat.mul_one]

/-- The index of a rank asks for the row. -/
theorem askFor_local (hi : iLayout.dims = [e]) (row k : ℕ) :
    ∃ m r, (askFor iLayout row).shape = [m] ∧ iLayout.area (askFor iLayout row).shape k = [r] ∧
      r.2 ≤ m ∧ r.2 - r.1 = 1 ∧
      (∀ t < r.2 - r.1, (iLayout.toLocal (askFor iLayout row) k).entry [t] =
        (askFor iLayout row).entry [r.1 + t]) ∧
      ∀ t < m, (askFor iLayout row).entry [t] = row := by
  have heven : iLayout.Even (askFor iLayout row).shape := even_unitShape iLayout
  obtain ⟨m, r, hm, hr, hle, hlocal⟩ := toLocal_index (k := k) hi heven
  have hunit := areaShape_unitShape iLayout k
  have hshape : unitShape iLayout = [m] := hm
  have harea : iLayout.area (unitShape iLayout) k = [r] := hr
  rw [harea, hi] at hunit
  refine ⟨m, r, hm, hr, hle, (List.cons.inj hunit).1, hlocal, ?_⟩
  intro t ht
  have hvalid : Valid (unitShape iLayout) [t] := by
    rw [hshape]
    exact .cons ht .nil
  exact Tensor.entry_ofEntries _ hvalid

/-- What a rank returns when all of them ask for one row. -/
theorem expandImpl_askFor {row q : ℕ} (hi : iLayout.dims = [e]) (ha : a < pLayout.dims.length)
    (hd : (pLayout.dims.getD a []).head? = some d)
    (hrow : row < (unitShape pLayout).getD a 0) :
    ∃ t, expandImpl pLayout a k (pLayout.toLocal (oneRow (α := α) pLayout a q) k)
        (iLayout.toLocal (askFor iLayout row) k) = some t ∧
      t.shape = List.replicate pLayout.dims.length 1 ∧
      t.entry (List.replicate pLayout.dims.length 0) =
        if mesh.groupLocalRank d k = row ∧
          shardIndex mesh.shape (mesh.coordinate k) (pLayout.dims.getD a []) = q then 1 else 0 := by
  obtain ⟨m, r, hm, hr, hle, hone, hlocal, hindex⟩ := askFor_local hi row k
  have ha' : a < (unitShape pLayout).length := by rwa [← (even_unitShape pLayout).length_eq]
  have hpos := prod_pos_of_dims mesh (pLayout.dims.getD a [])
    fun d hd => pLayout.lt_of_mem_dims hd
  have hsize : localSize pLayout (oneRow (α := α) pLayout a q).shape a = 1 := by
    rw [localSize, oneRow, Tensor.shape_ofEntries, getD_unitShape pLayout ha, Nat.div_self hpos]
  have heven : pLayout.Even (oneRow (α := α) pLayout a q).shape := even_unitShape pLayout
  obtain ⟨t, ht, hshape, hentry⟩ := expandImpl_eq hd heven ha' hr hle hlocal (by
      intro t ht
      rw [hindex t ht, oneRow, Tensor.shape_ofEntries]
      omega)
  have hshard : shardIndex mesh.shape (mesh.coordinate k) (pLayout.dims.getD a []) <
      (unitShape pLayout).getD a 0 := by
    rw [getD_unitShape pLayout ha]
    exact shardIndex_lt Mesh.isCoordinate_coordinate fun d hd => pLayout.lt_of_mem_dims hd
  have hunit : (areaShape (pLayout.area (oneRow (α := α) pLayout a q).shape k)).set a
      (r.2 - r.1) = List.replicate pLayout.dims.length 1 := by
    rw [oneRow, Tensor.shape_ofEntries, areaShape_unitShape, hone, List.set_replicate_self]
  have hzero := valid_zeros pLayout.dims.length
  have hplace : (List.replicate pLayout.dims.length 0).getD a 0 = 0 := by
    rw [List.getD_eq_getElem _ _ (by simpa using ha), List.getElem_replicate]
  rw [hunit] at hshape
  refine ⟨t, ht, hshape, ?_⟩
  rw [hentry _ (hshape ▸ hzero), hplace, hindex _ (by omega), hsize]
  by_cases hrank : mesh.groupLocalRank d k = row
  · subst hrank
    rw [if_pos (by rw [inChunk]; omega)]
    have harea : (pLayout.area (oneRow (α := α) pLayout a q).shape k).getD a (0, 0) = _ :=
      getD_area_unitShape ha k
    rw [harea, Nat.mul_one, Int.sub_self, Int.toNat_zero, Nat.add_zero]
    exact (entry_oneRow ha hzero hshard).trans (by simp only [true_and])
  · rw [if_neg (by rw [inChunk]; omega), if_neg fun h => hrank h.1]

/-- Where the source is not selected as it should be, one row of ones shows it. -/
theorem aligned_of_correct [Nontrivial α] (h : inferLayout pLayout iLayout axis = .ok outLayout)
    (hcorrect : Correct α pLayout iLayout outLayout
      (normalizeAxis pLayout.aliasTensorMap.length axis)) :
    Aligned pLayout (normalizeAxis pLayout.aliasTensorMap.length axis) := by
  obtain ⟨ha, ⟨e, hi, hout⟩, hfree, hpending⟩ := of_inferLayout h
  generalize normalizeAxis pLayout.aliasTensorMap.length axis = a at *
  have hpeers : ∀ k, mesh.peers outLayout.pendingDims k = mesh.peers (pLayout.dims.getD a []) k := by
    intro k
    simp only [Mesh.peers, hpending]
  have hlength : (unitShape pLayout).length = pLayout.dims.length :=
    (even_unitShape pLayout).length_eq.symm
  have ha' : a < (unitShape pLayout).length := by omega
  have hsizePos : 0 < (unitShape pLayout).getD a 0 := by
    rw [getD_unitShape pLayout ha]
    exact prod_pos_of_dims _ _ fun d hd => pLayout.lt_of_mem_dims hd
  have hprod : 0 < mesh.shape.prod := List.prod_pos mesh.shape_pos
  have hone : localSize pLayout (unitShape pLayout) a = 1 := by
    rw [localSize, getD_unitShape pLayout ha, ← getD_unitShape pLayout ha, Nat.div_self hsizePos]
  -- what the ranks return when all of them ask for one row
  have hask : ∀ row q, row < (unitShape pLayout).getD a 0 → ∃ y,
      indexSelect (oneRow (α := α) pLayout a q) a (askFor iLayout row) = some y := by
    intro row q hrow
    refine ⟨_, indexSelect_isSome _ _ ?_⟩
    intro t ht
    have hindexShape : (askFor iLayout row).shape = [(unitShape iLayout).getD 0 0] := by
      simp [askFor, unitShape, hi]
    rw [hindexShape, List.getD_cons_zero] at ht
    have hvalid : Valid (unitShape iLayout) [t] := by
      have : unitShape iLayout = [(unitShape iLayout).getD 0 0] := hindexShape
      rw [this]
      exact .cons ht .nil
    rw [askFor, Tensor.entry_ofEntries _ hvalid, oneRow, Tensor.shape_ofEntries]
    omega
  by_cases hnone : pLayout.aliasTensorMap.getD a (.name "None") = .name "None"
  · exact Or.inl hnone
  refine Or.inr ?_
  cases hd : (pLayout.dims.getD a []).head? with
  | none =>
    -- no axis in the tuple: the local work fails
    obtain ⟨y, hy⟩ := hask 0 0 hsizePos
    obtain ⟨locals, hresult, -⟩ := hcorrect _ _ y (even_unitShape pLayout)
      (even_unitShape iLayout) hy
    have hnames : (pLayout.aliasTensorMap.getD a (.name "None")).shardNames = [] := by
      rw [dims_getD, AliasEntry.dims, List.head?_map, Option.map_eq_none_iff,
        List.head?_eq_none_iff] at hd
      exact hd
    have hfail := hresult 0 hprod
    simp only [expandImpl, if_neg hnone, hnames] at hfail
    cases hfail
  | some d =>
    refine ⟨d, rfl, ?_⟩
    intro k hk
    have hdmem : d ∈ pLayout.dims.getD a [] := List.mem_of_mem_head? hd
    have hrank : mesh.groupLocalRank d k < (unitShape pLayout).getD a 0 := by
      refine (groupLocalRank_lt (pLayout.lt_of_mem_dims hdmem) hk).trans_le ?_
      rw [getD_unitShape pLayout ha] at hsizePos ⊢
      exact Nat.le_of_dvd hsizePos (List.dvd_prod (List.mem_map_of_mem hdmem))
    have hshard : shardIndex mesh.shape (mesh.coordinate k) (pLayout.dims.getD a []) <
        (unitShape pLayout).getD a 0 := by
      rw [getD_unitShape pLayout ha]
      exact shardIndex_lt Mesh.isCoordinate_coordinate fun d hd => pLayout.lt_of_mem_dims hd
    obtain ⟨y, hy⟩ := hask (mesh.groupLocalRank d k)
      (shardIndex mesh.shape (mesh.coordinate k) (pLayout.dims.getD a [])) hrank
    obtain ⟨locals, hresult, ⟨-, hsum⟩, -⟩ := hcorrect _ _ y (even_unitShape pLayout)
      (even_unitShape iLayout) hy
    -- of the ranks that are added up, this one alone holds the row of ones
    have hterm : ∀ l ∈ mesh.peers (pLayout.dims.getD a []) k,
        (locals l).entry (List.replicate pLayout.dims.length 0) = if l = k then 1 else 0 := by
      intro l hl
      obtain ⟨hlprod, -⟩ := Mesh.mem_peers.1 hl
      obtain ⟨t, ht, -, hentry⟩ := expandImpl_askFor (α := α) (k := l)
        (q := shardIndex mesh.shape (mesh.coordinate k) (pLayout.dims.getD a [])) hi ha hd hrank
      rw [hresult l hlprod] at ht
      rw [Option.some.inj ht, hentry]
      obtain ⟨owner, -, hunique⟩ := Mesh.existsUnique_peer pLayout.nodup_getD_dims
        (fun d hd => pLayout.lt_of_mem_dims hd) hshard k
      have hholds : ∀ l ∈ mesh.peers (pLayout.dims.getD a []) k,
          (shardIndex mesh.shape (mesh.coordinate l) (pLayout.dims.getD a []) =
            shardIndex mesh.shape (mesh.coordinate k) (pLayout.dims.getD a []) ↔ l = owner) := by
        intro l hl
        rw [← hunique l hl, ← pLayout.getD_area (even_unitShape pLayout).length_eq ha',
          getD_area_unitShape ha l]
        omega
      have howner : k = owner := (hholds k (self_mem_peers _ hk)).1 rfl
      refine if_congr ?_ rfl rfl
      rw [hholds l hl, ← howner]
      refine ⟨fun h => h.2, ?_⟩
      rintro rfl
      exact ⟨rfl, rfl⟩
    obtain ⟨t, ht, hshape, -⟩ := expandImpl_askFor (α := α) (k := k)
      (q := shardIndex mesh.shape (mesh.coordinate k) (pLayout.dims.getD a [])) hi ha hd hrank
    rw [hresult k hk] at ht
    have hzero := valid_zeros pLayout.dims.length
    obtain ⟨m, r, hm, hr, hle, hone, -, hindex⟩ := askFor_local hi (mesh.groupLocalRank d k) k
    have hexpected := (entry_toLocal_select hout hi (even_unitShape pLayout) ha' hm hr hle hy).2
      (List.replicate pLayout.dims.length 0) (by
        change Valid ((areaShape (pLayout.area (unitShape pLayout) k)).set a (r.2 - r.1)) _
        rw [areaShape_unitShape, hone, List.set_replicate_self]
        exact hzero)
    have hplace : (List.replicate pLayout.dims.length 0).getD a 0 = 0 := by
      rw [List.getD_eq_getElem _ _ (by simpa using ha), List.getElem_replicate]
    have hrow : (oneRow (α := α) pLayout a (shardIndex mesh.shape (mesh.coordinate k)
        (pLayout.dims.getD a []))).entry ((globalIndex (pLayout.area (unitShape pLayout) k)
          (List.replicate pLayout.dims.length 0)).set a (mesh.groupLocalRank d k)) = _ :=
      entry_oneRow ha hzero hrank
    have htotal := hsum k hk (List.replicate pLayout.dims.length 0)
      (by rw [Option.some.inj ht, hshape]; exact hzero)
    rw [hpeers, Finset.sum_congr rfl hterm, Finset.sum_ite_eq' _ k,
      if_pos (self_mem_peers _ hk), hexpected, hplace, hindex _ (by omega), Int.toNat_natCast]
      at htotal
    have hsame := htotal.trans hrow
    by_contra hne
    rw [if_neg hne] at hsame
    exact one_ne_zero hsame

end Only

/-- An accepted selection is right exactly when the dimension is not sharded, or the place of every
rank in the group of the first axis is the number of its shard. -/
theorem correct_iff (α : Type) [Semiring α] [Nontrivial α] {pLayout iLayout outLayout : Layout mesh}
    {axis : ℤ} (h : inferLayout pLayout iLayout axis = .ok outLayout) :
    Correct α pLayout iLayout outLayout (normalizeAxis pLayout.aliasTensorMap.length axis) ↔
      Aligned pLayout (normalizeAxis pLayout.aliasTensorMap.length axis) :=
  ⟨aligned_of_correct h, correct_of_aligned h⟩

/-- A mesh of two by two, with the rows of a tensor over its second axis, over both, and whole. -/
def meshTwoTwo : Mesh where
  shape := [2, 2]
  aliasName := ["dp", "tp"]
  rankList := [0, 1, 2, 3]
  shape_pos := by decide
  length_aliasName := rfl
  length_rankList := rfl
  nodup_rankList := by decide

def rowsOverOne : Layout meshTwoTwo := ⟨[.name "tp"], [.axis 0], rfl, [none, none]⟩

def rowsOverBoth : Layout meshTwoTwo := ⟨[.names ["dp", "tp"]], [.axes [1, 0]], rfl, [none, none]⟩

def wholeRows : Layout meshTwoTwo := ⟨[.name "None"], [.axis (-1)], rfl, [none, none]⟩

theorem correct_iff_over_one : ∃ outLayout, inferLayout rowsOverOne wholeRows 0 = .ok outLayout ∧
    Correct ℤ rowsOverOne wholeRows outLayout 0 := by
  have haccept : (inferLayout rowsOverOne wholeRows 0).isOk = true := by decide
  cases h : inferLayout rowsOverOne wholeRows 0 with
  | error e =>
    rw [h] at haccept
    cases haccept
  | ok outLayout => exact ⟨outLayout, rfl, (correct_iff ℤ h).2 (Or.inr ⟨1, rfl, by decide⟩)⟩

/-- Rows over both axes: no rank of the group of the first one contributes the last two of four. -/
theorem not_correct_over_both : ∃ outLayout,
    inferLayout rowsOverBoth wholeRows 0 = .ok outLayout ∧
      ¬ Correct ℤ rowsOverBoth wholeRows outLayout 0 := by
  have haccept : (inferLayout rowsOverBoth wholeRows 0).isOk = true := by decide
  cases h : inferLayout rowsOverBoth wholeRows 0 with
  | error e =>
    rw [h] at haccept
    cases haccept
  | ok outLayout =>
    refine ⟨outLayout, rfl, fun hcorrect => ?_⟩
    rcases aligned_of_correct h hcorrect with hnone | ⟨d, hd, halign⟩
    · cases hnone
    · cases hd
      exact absurd (halign 2 (by decide)) (by decide)

end HyperParallel.DTensor.IndexSelect

import HyperParallel.Checkpoint.SaveOwnership
import HyperParallel.Checkpoint.ReadItems
import HyperParallel.Lib.ExceptList

/-!
# A sharded tensor in a save

What the ranks of a mesh write of one distributed tensor.  A chunk is known by its name and start
offsets only; every element is written, and every chunk once, exactly when no empty shard starts
where a non-empty one does (`ShardedTensor.writtenOnce_iff`).
-/

namespace HyperParallel.Checkpoint

open HyperParallel.DTensor

/-! ### The tensor -/

/-- A `DTensor` on all ranks of its mesh: the local tensor of a rank is the slice that the layout
gives it. -/
structure ShardedTensor where
  fqn : String
  dtype : String
  shape : List ℕ
  layout : SaveLayout
  mesh_pos : ∀ n ∈ layout.meshShape, 0 < n
  isTensorMap : IsTensorMap layout.meshShape layout.tensorMap
  length_tensorMap : layout.tensorMap.length = shape.length
  rankList : layout.rankList.Perm (List.range layout.meshShape.prod)

namespace ShardedTensor

variable (t : ShardedTensor)

/-- The number of ranks. -/
def worldSize : ℕ := t.layout.meshShape.prod

/-- The slice of a rank. -/
def slice (rank : ℕ) : List (ℕ × ℕ) :=
  inferSliceAreaByRank t.layout.meshShape t.layout.tensorMap (t.layout.rankList.idxOf rank) t.shape
    t.layout.unevenShardMeshDims

/-- The chunk of a rank. -/
def localChunk (rank : ℕ) : ChunkStorageMetadata :=
  ⟨(t.slice rank).map Prod.fst, Box.lengths (t.slice rank)⟩

/-- The tensor in the state dict of a rank. -/
def value (rank : ℕ) : StateValue :=
  .dtensor t.shape (t.localChunk rank).sizes t.dtype (some t.layout)

/-- The write item of a rank. -/
def localItem (rank : ℕ) : WriteItem := tensorItem t.fqn t.dtype (t.localChunk rank) t.shape

/-- The rest of the state dicts: what stands before and after the tensor on every rank. -/
structure Rest where
  before : ℕ → List (String × StateValue)
  after : ℕ → List (String × StateValue)
  fqn_before : ∀ rank, ∀ entry ∈ before rank, entry.1 ≠ t.fqn
  fqn_after : ∀ rank, ∀ entry ∈ after rank, entry.1 ≠ t.fqn

variable {t}

/-- The state dict of a rank. -/
def Rest.stateDict (rest : t.Rest) (rank : ℕ) : List (String × StateValue) :=
  rest.before rank ++ (t.fqn, t.value rank) :: rest.after rank

/-- A save with redundancy removed: what the planners of the ranks return. -/
def Rest.Saves (rest : t.Rest) (nameMapping : ℕ → Option NameMapping) (saveToMinimumRank flattened :
    Bool) (results : ℕ → SavePlan × SaveMetadata) : Prop :=
  ∃ plans, ((List.range t.worldSize).mapM fun rank =>
      StandardSavePlanner.buildLocalPlan rank (rest.stateDict rank) (nameMapping rank)) =
        .ok plans ∧
    ∀ rank < t.worldSize, StandardSavePlanner.buildGlobalPlan rank ⟨true, saveToMinimumRank⟩
      flattened plans = .ok (results rank)

variable (t)

/-- The chunks of the tensor that the ranks write, in the order of the ranks. -/
def chunksWritten (results : ℕ → SavePlan × SaveMetadata) : List ChunkStorageMetadata :=
  (List.range t.worldSize).flatMap fun rank => writtenChunks t.fqn (results rank).1.items

/-- The tensor is written: every element, every non-empty chunk once, and the metadata lists the
chunks that are written. -/
structure WrittenOnce (results : ℕ → SavePlan × SaveMetadata) : Prop where
  cover : ∀ g ∈ Box.localPoints t.shape, ∃ chunk ∈ t.chunksWritten results,
    g ∈ Box.points (chunkToArea chunk)
  once : ∀ rank < t.worldSize, (Box.points (chunkToArea (t.localChunk rank))).Nonempty →
    (t.chunksWritten results).count (t.localChunk rank) = 1
  metadata : ∀ rank < t.worldSize, ∃ properties size,
    (results rank).2.stateDictMetadata.lookup t.fqn =
      some (.tensor properties size (t.chunksWritten results))

/-- No empty shard starts where a non-empty one does. -/
def EmptyShardsApart : Prop :=
  ∀ rank < t.worldSize, ∀ rank' < t.worldSize,
    (t.localChunk rank).offsets = (t.localChunk rank').offsets →
    (Box.points (chunkToArea (t.localChunk rank))).Nonempty →
    (Box.points (chunkToArea (t.localChunk rank'))).Nonempty

/-! ### The slices -/

section Slices

variable {t} {rank rank' : ℕ} {g : List ℕ}

theorem usedDims_lt : ∀ d ∈ usedDims t.layout.meshShape t.layout.tensorMap,
    d < t.layout.meshShape.length :=
  DTensor.usedDims_lt t.isTensorMap

theorem slice_within (rank : ℕ) : Box.Within (t.slice rank) t.shape ∧
    ∀ r ∈ t.slice rank, r.1 ≤ r.2 := by
  rw [slice, inferSliceAreaByRank_eq]
  exact sliceArea_within (isCoordinate_calculate t.mesh_pos) usedDims_lt t.length_tensorMap

theorem chunkToArea_localChunk (rank : ℕ) : chunkToArea (t.localChunk rank) = t.slice rank := by
  have h : ∀ l : List (ℕ × ℕ), (∀ r ∈ l, r.1 ≤ r.2) →
      Box.ofSizes (l.map Prod.fst) (Box.lengths l) = l := by
    intro l hl
    induction l with
    | nil => rfl
    | cons r l ih =>
      rw [List.forall_mem_cons] at hl
      rw [List.map_cons, Box.lengths_cons, Box.ofSizes_cons, ih hl.2,
        Nat.add_sub_cancel' hl.1]
  exact h _ (slice_within rank).2

/-- Slices that share an element are the same. -/
theorem slice_eq_of_mem (hg : g ∈ Box.points (t.slice rank)) (hg' : g ∈ Box.points (t.slice rank')) :
    t.slice rank = t.slice rank' := by
  have hshape := Box.mem_localPoints_of_within (slice_within rank).1 hg
  obtain ⟨A, hA, -, hiff⟩ := exists_agrees_area t.layout.unevenShardMeshDims usedDims_lt t.mesh_pos
    t.length_tensorMap hshape
  rw [slice, inferSliceAreaByRank_eq] at hg hg' ⊢
  rw [slice, inferSliceAreaByRank_eq]
  have h := (hiff _ (isCoordinate_calculate t.mesh_pos)).1 hg
  have h' := (hiff _ (isCoordinate_calculate t.mesh_pos)).1 hg'
  refine sliceArea_congr fun d hd => ?_
  rw [← hA] at hd
  obtain ⟨p, hp, rfl⟩ := List.mem_map.1 hd
  rw [h p hp, h' p hp]

/-- Non-empty slices with one start are the same. -/
theorem localChunk_eq_of_offsets (hoffsets : (t.localChunk rank).offsets = (t.localChunk rank').offsets)
    (hne : (Box.points (t.slice rank)).Nonempty) (hne' : (Box.points (t.slice rank')).Nonempty) :
    t.localChunk rank = t.localChunk rank' := by
  have hstart := Box.lower_mem (Box.nonempty_iff.1 hne)
  have hstart' := Box.lower_mem (Box.nonempty_iff.1 hne')
  have hslice : t.slice rank = t.slice rank' := by
    refine slice_eq_of_mem hstart ?_
    have heq : (t.slice rank).map Prod.fst = (t.slice rank').map Prod.fst := hoffsets
    rwa [heq]
  rw [localChunk, localChunk, hslice]

/-- Every element is in the slice of some rank. -/
theorem exists_slice (hg : g ∈ Box.localPoints t.shape) :
    ∃ rank < t.worldSize, g ∈ Box.points (t.slice rank) := by
  have hcard : ((Finset.range t.layout.meshShape.prod).filter fun k =>
      g ∈ Box.points (inferSliceAreaByRank t.layout.meshShape t.layout.tensorMap k t.shape
        t.layout.unevenShardMeshDims)).card =
          repeatNum t.layout.meshShape t.layout.tensorMap :=
    card_ranks_of_element t.mesh_pos t.isTensorMap t.length_tensorMap hg
  have hpos := repeatNum_pos t.mesh_pos t.isTensorMap
  rw [← hcard, Finset.card_pos] at hpos
  obtain ⟨k, hk⟩ := hpos
  rw [Finset.mem_filter, Finset.mem_range] at hk
  have hlt : k < t.layout.rankList.length := by
    rw [t.rankList.length_eq, List.length_range]
    exact hk.1
  refine ⟨t.layout.rankList[k], ?_, ?_⟩
  · exact List.mem_range.1 (t.rankList.subset (List.getElem_mem hlt))
  · rw [slice, (t.rankList.nodup_iff.2 List.nodup_range).idxOf_getElem k hlt]
    exact hk.2

end Slices

/-! ### The local plans -/

section Plans

variable {t} {rank : ℕ} {rest : t.Rest} {plan : SavePlan} {item : WriteItem}

theorem fqn_writeItem {fqn : String} {value : StateValue}
    (h : writeItem rank fqn value = .ok item) : item.index.fqn = fqn := by
  unfold writeItem at h
  split at h
  · next shape localShape dtype layout =>
    cases hoffsets : computeGlobalOffsets shape layout rank with
    | error e => simp [hoffsets, bind, Except.bind] at h
    | ok offsets =>
      simp only [hoffsets, bind, Except.bind, pure, Except.pure, Except.ok.injEq] at h
      exact h ▸ rfl
  all_goals exact Except.ok.inj h ▸ rfl

theorem writeItem_value (h : rank < t.worldSize) :
    writeItem rank t.fqn (t.value rank) = .ok (t.localItem rank) := by
  have hmem : rank ∈ t.layout.rankList := t.rankList.mem_iff.2 (List.mem_range.2 h)
  simp only [value, writeItem, computeGlobalOffsets, hmem, not_true_eq_false, if_false, bind,
    Except.bind, pure, Except.pure]
  rfl

/-- The plan of a rank: its item of the tensor among items of other names. -/
theorem localPlan_eq {nameMapping : Option NameMapping} (hrank : rank < t.worldSize)
    (h : StandardSavePlanner.buildLocalPlan rank (rest.stateDict rank) nameMapping = .ok plan) :
    ∃ pre post, plan.items = pre ++ t.localItem rank :: post ∧
      (∀ item ∈ pre, item.index.fqn ≠ t.fqn) ∧ ∀ item ∈ post, item.index.fqn ≠ t.fqn := by
  have hnames : ∀ {entries : List (String × StateValue)} {items : List WriteItem},
      (∀ entry ∈ entries, entry.1 ≠ t.fqn) →
      entries.mapM (fun entry => writeItem rank entry.1 entry.2) = .ok items →
      ∀ item ∈ items, item.index.fqn ≠ t.fqn := by
    intro entries items hentries hitems item hitem
    obtain ⟨i, hi, rfl⟩ := List.getElem_of_mem hitem
    have hforall := ExceptList.forall₂_of_mapM hitems
    have hlen := hforall.length_eq
    have hwrite : writeItem rank (entries[i]).1 (entries[i]).2 = .ok items[i] :=
      hforall.get (by omega) hi
    rw [fqn_writeItem hwrite]
    exact hentries _ (List.getElem_mem _)
  unfold StandardSavePlanner.buildLocalPlan Rest.stateDict at h
  rw [List.mapM_append, List.mapM_cons, writeItem_value hrank] at h
  cases hpre : (rest.before rank).mapM fun entry => writeItem rank entry.1 entry.2 with
  | error e => simp [hpre, bind, Except.bind] at h
  | ok pre =>
    cases hpost : (rest.after rank).mapM fun entry => writeItem rank entry.1 entry.2 with
    | error e => simp [hpre, hpost, bind, Except.bind] at h
    | ok post =>
      simp only [hpre, hpost, bind, Except.bind, pure, Except.pure, Except.ok.injEq] at h
      subst h
      exact ⟨pre, post, rfl, hnames (rest.fqn_before rank) hpre, hnames (rest.fqn_after rank) hpost⟩

/-- The local plans of a save. -/
structure Rest.Plans (rest : t.Rest) (plans : List SavePlan) : Prop where
  length_eq : plans.length = t.worldSize
  items_eq : ∀ (rank : ℕ) (h : rank < plans.length), ∃ pre post,
    plans[rank].items = pre ++ t.localItem rank :: post ∧
      (∀ item ∈ pre, item.index.fqn ≠ t.fqn) ∧ ∀ item ∈ post, item.index.fqn ≠ t.fqn

theorem plans_of_mapM {nameMapping : ℕ → Option NameMapping} {plans : List SavePlan}
    (h : ((List.range t.worldSize).mapM fun rank =>
      StandardSavePlanner.buildLocalPlan rank (rest.stateDict rank) (nameMapping rank)) =
        .ok plans) : rest.Plans plans := by
  have hforall := ExceptList.forall₂_of_mapM h
  have hlen : plans.length = t.worldSize := by
    rw [← hforall.length_eq, List.length_range]
  refine ⟨hlen, fun rank hrank => ?_⟩
  have hplan := hforall.get (by rw [List.length_range]; omega : rank < _) hrank
  simp only [List.get_eq_getElem, List.getElem_range] at hplan
  exact localPlan_eq (hlen ▸ hrank) hplan

end Plans

/-! ### What is kept -/

section Kept

variable {t} {rank : ℕ} {rest : t.Rest} {plans : List SavePlan} {saveToMinimumRank : Bool}

/-- The items of the tensor in the plans are the write items of the ranks. -/
theorem eq_localItem (h : rest.Plans plans) {slot : Slot} {item : WriteItem}
    (hitem : itemAt (plans.map SavePlan.items) slot = some item) (hfqn : item.index.fqn = t.fqn) :
    slot.1 < t.worldSize ∧ item = t.localItem slot.1 := by
  obtain ⟨plan, hplan, hat⟩ := Option.bind_eq_some_iff.1 hitem
  rw [List.getElem?_map, Option.map_eq_some_iff] at hplan
  obtain ⟨savePlan, hsave, rfl⟩ := hplan
  obtain ⟨hlt, rfl⟩ := List.getElem?_eq_some_iff.1 hsave
  obtain ⟨pre, post, heq, hpre, hpost⟩ := h.items_eq slot.1 hlt
  have hmem := List.mem_of_getElem? hat
  rw [heq, List.mem_append, List.mem_cons] at hmem
  refine ⟨h.length_eq ▸ hlt, ?_⟩
  rcases hmem with hmem | rfl | hmem
  · exact absurd hfqn (hpre _ hmem)
  · rfl
  · exact absurd hfqn (hpost _ hmem)

/-- The write item of a rank stands in its plan. -/
theorem exists_itemAt (h : rest.Plans plans) (hrank : rank < t.worldSize) :
    ∃ i, itemAt (plans.map SavePlan.items) (rank, i) = some (t.localItem rank) := by
  have hlt : rank < plans.length := h.length_eq ▸ hrank
  obtain ⟨pre, post, heq, -, -⟩ := h.items_eq rank hlt
  refine ⟨pre.length, ?_⟩
  simp only [itemAt, List.getElem?_map, List.getElem?_eq_getElem hlt, Option.map_some,
    Option.bind_some, heq]
  rw [List.getElem?_append_right le_rfl, Nat.sub_self]
  rfl

/-- The items that are kept. -/
def keptAll (saveToMinimumRank : Bool) (plans : List SavePlan) : List WriteItem :=
  (walkedItems ⟨true, saveToMinimumRank⟩ (plans.map SavePlan.items)).flatten

/-- Of the items that start where the one of a rank does, one is kept. -/
theorem exists_kept (h : rest.Plans plans) (saveToMinimumRank : Bool) (hrank : rank < t.worldSize) :
    ∃ owner < t.worldSize, (t.localChunk owner).offsets = (t.localChunk rank).offsets ∧
      (keptAll saveToMinimumRank plans).filter
        (fun item => item.index.key = (t.fqn, (t.localChunk rank).offsets)) =
          [t.localItem owner] := by
  by_cases hseveral : 1 < plans.length
  · have hkey : (t.fqn, (t.localChunk rank).offsets) ∈ indexKeys (plans.map SavePlan.items) := by
      obtain ⟨i, hi⟩ := exists_itemAt h hrank
      exact mem_indexKeys.2 ⟨(rank, i), mem_holders.2 ⟨_, hi, rfl⟩⟩
    obtain ⟨slot, item, hitem, hitemkey, hfilter⟩ :=
      filter_kept_eq_singleton saveToMinimumRank hkey
    obtain ⟨howner, rfl⟩ := eq_localItem h hitem (Prod.mk.inj hitemkey).1
    refine ⟨slot.1, howner, (Prod.mk.inj hitemkey).2, ?_⟩
    have hwalked : walkedItems ⟨true, saveToMinimumRank⟩ (plans.map SavePlan.items) =
        (plans.map SavePlan.items).zipIdx.map fun plan => keptItems
          (planOwnershipMasks (plans.map SavePlan.items) saveToMinimumRank) plan.2 plan.1 :=
      if_pos ⟨rfl, by rwa [List.length_map]⟩
    rw [keptAll, hwalked]
    exact hfilter
  · have hlen := h.length_eq
    obtain ⟨plan, rfl⟩ := List.length_eq_one_iff.1 (by omega : plans.length = 1)
    obtain rfl : rank = 0 := by
      rw [List.length_singleton] at hlen
      omega
    obtain ⟨pre, post, heq, hpre, hpost⟩ := h.items_eq 0 Nat.one_pos
    refine ⟨0, hrank, rfl, ?_⟩
    have hne : ∀ {l : List WriteItem}, (∀ item ∈ l, item.index.fqn ≠ t.fqn) →
        l.filter (fun item => item.index.key = (t.fqn, (t.localChunk 0).offsets)) = [] := by
      intro l hl
      refine List.filter_eq_nil_iff.2 fun item hitem hkey => ?_
      exact hl item hitem (Prod.mk.inj (of_decide_eq_true hkey)).1
    have hall : keptAll saveToMinimumRank [plan] = pre ++ t.localItem 0 :: post := by
      rw [keptAll, walkedItems, if_neg (by simp)]
      rw [List.map_singleton, List.flatten_singleton]
      exact heq
    rw [hall, List.filter_append, hne hpre, List.filter_cons_of_pos (by simp [localItem, tensorItem,
      MetadataIndex.key]), hne hpost, List.nil_append]

/-- What is kept stands in a plan. -/
theorem exists_itemAt_of_kept {item : WriteItem} (h : item ∈ keptAll saveToMinimumRank plans) :
    ∃ slot, itemAt (plans.map SavePlan.items) slot = some item := by
  rw [keptAll, walkedItems] at h
  split_ifs at h with hseveral
  · rw [flatten_keptItems, List.mem_map] at h
    obtain ⟨⟨item, slot⟩, hmem, rfl⟩ := h
    exact ⟨slot, mem_occurrences.1 (List.mem_of_mem_filter hmem)⟩
  · obtain ⟨items, hitems, hmem⟩ := List.mem_flatten.1 h
    obtain ⟨p, hp⟩ := List.mem_iff_getElem?.1 hitems
    obtain ⟨i, hi⟩ := List.mem_iff_getElem?.1 hmem
    exact ⟨(p, i), Option.bind_eq_some_iff.2 ⟨items, hp, hi⟩⟩

@[simp] theorem chunkOf_localItem : chunkOf t.fqn (t.localItem rank) = some (t.localChunk rank) :=
  if_pos rfl

/-- How often a chunk is written: it is that of the one kept item at its start, or not at all. -/
theorem count_writtenChunks (h : rest.Plans plans) {owner : ℕ}
    (hfilter : (keptAll saveToMinimumRank plans).filter
      (fun item => item.index.key = (t.fqn, (t.localChunk rank).offsets)) = [t.localItem owner]) :
    (writtenChunks t.fqn (keptAll saveToMinimumRank plans)).count (t.localChunk rank) =
      if t.localChunk owner = t.localChunk rank then 1 else 0 := by
  rw [writtenChunks, List.count_filterMap]
  have hsplit : ∀ item ∈ keptAll saveToMinimumRank plans,
      (chunkOf t.fqn item == some (t.localChunk rank)) =
        ((chunkOf t.fqn item == some (t.localChunk rank)) &&
          decide (item.index.key = (t.fqn, (t.localChunk rank).offsets))) := by
    intro item hitem
    rw [Bool.eq_iff_iff, Bool.and_eq_true, beq_iff_eq, decide_eq_true_eq, iff_self_and]
    intro hchunk
    have hfqn : item.index.fqn = t.fqn := by
      unfold chunkOf at hchunk
      split at hchunk
      · split_ifs at hchunk with hname
        exact hname
      · cases hchunk
    obtain ⟨slot, hslot⟩ := exists_itemAt_of_kept hitem
    obtain ⟨-, rfl⟩ := eq_localItem h hslot hfqn
    have heq : t.localChunk slot.1 = t.localChunk rank := by
      simpa using hchunk
    rw [← heq]
    rfl
  rw [List.countP_congr fun item hitem => Bool.eq_iff_iff.1 (hsplit item hitem),
    ← List.countP_filter, hfilter, List.countP_singleton]
  simp

/-- What the ranks write is what is kept. -/
theorem chunksWritten_eq {flattened : Bool} {results : ℕ → SavePlan × SaveMetadata}
    (hplans : rest.Plans plans) (hglobal : ∀ rank < t.worldSize,
      StandardSavePlanner.buildGlobalPlan rank ⟨true, saveToMinimumRank⟩ flattened plans =
        .ok (results rank)) :
    t.chunksWritten results = writtenChunks t.fqn (keptAll saveToMinimumRank plans) ∧
      (t.chunksWritten results ≠ [] → ∀ rank < t.worldSize, ∃ properties size,
        (results rank).2.stateDictMetadata.lookup t.fqn =
          some (.tensor properties size (t.chunksWritten results))) := by
  have hchunks : t.chunksWritten results =
      writtenChunks t.fqn (keptAll saveToMinimumRank plans) := by
    have hwalked : (walkedItems ⟨true, saveToMinimumRank⟩
        (plans.map SavePlan.items)).length = t.worldSize := by
      rw [walkedItems, ← hplans.length_eq]
      split_ifs <;> simp
    rw [chunksWritten, keptAll, writtenChunks, List.filterMap_flatten, List.flatMap_def]
    congr 1
    apply List.ext_getElem
    · rw [List.length_map, List.length_map, List.length_range, hwalked]
    intro i hi hi'
    rw [List.length_map, List.length_range] at hi
    rw [List.getElem_map, List.getElem_map, List.getElem_range,
      (buildGlobalPlan_spec t.fqn (hglobal i hi)).1]
    -- on one rank the own plan is the first
    have hown : (if 1 < plans.length then i else 0) = i := by
      rw [hplans.length_eq]
      split_ifs
      · rfl
      · omega
    rw [hown, List.getD_eq_getElem _ _ (hwalked ▸ hi)]
    rfl
  refine ⟨hchunks, fun hne rank hrank => ?_⟩
  rw [hchunks] at hne ⊢
  exact (buildGlobalPlan_spec t.fqn (hglobal rank hrank)).2 hne

end Kept

/-! ### The tensor is written -/

section Written

variable {t} {rest : t.Rest} {saveToMinimumRank flattened : Bool}
  {nameMapping : ℕ → Option NameMapping} {results : ℕ → SavePlan × SaveMetadata}

theorem worldSize_pos : 0 < t.worldSize :=
  List.prod_pos t.mesh_pos

/-- A save writes the tensor if no empty shard starts where a non-empty one does. -/
theorem writtenOnce_of_emptyShardsApart (hapart : t.EmptyShardsApart)
    (h : rest.Saves nameMapping saveToMinimumRank flattened results) : t.WrittenOnce results := by
  obtain ⟨plans, hmapM, hglobal⟩ := h
  have hplans := plans_of_mapM hmapM
  obtain ⟨hchunks, hmetadata⟩ := chunksWritten_eq hplans hglobal
  have honce : ∀ rank < t.worldSize, (Box.points (chunkToArea (t.localChunk rank))).Nonempty →
      (t.chunksWritten results).count (t.localChunk rank) = 1 := by
    intro rank hrank hne
    obtain ⟨owner, howner, hoffsets, hfilter⟩ := exists_kept hplans saveToMinimumRank hrank
    rw [hchunks, count_writtenChunks hplans hfilter, if_pos]
    have hne' := hapart rank hrank owner howner hoffsets.symm hne
    rw [chunkToArea_localChunk] at hne hne'
    exact localChunk_eq_of_offsets hoffsets hne' hne
  refine ⟨fun g hg => ?_, honce, hmetadata ?_⟩
  · obtain ⟨rank, hrank, hmem⟩ := exists_slice hg
    rw [← chunkToArea_localChunk] at hmem
    have hcount := honce rank hrank ⟨g, hmem⟩
    exact ⟨_, List.count_pos_iff.1 (by omega), hmem⟩
  · rw [hchunks]
    obtain ⟨owner, -, -, hfilter⟩ := exists_kept hplans saveToMinimumRank worldSize_pos
    have hmem : t.localItem owner ∈ keptAll saveToMinimumRank plans :=
      List.mem_of_mem_filter (hfilter ▸ List.mem_singleton_self _)
    exact List.ne_nil_of_mem (List.mem_filterMap.2 ⟨_, hmem, chunkOf_localItem⟩)

end Written

end ShardedTensor

end HyperParallel.Checkpoint

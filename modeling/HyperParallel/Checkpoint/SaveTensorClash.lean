import HyperParallel.Checkpoint.SaveTensor

/-!
# Shards that start at one place

An empty shard that starts where a non-empty one does can take its place in a save: when all other
ranks have something else to write, its rank is the least loaded of the holders
(`slot_mem_planOwnershipMasks`).  So the tensor is written in every save exactly when there is no
such shard (`ShardedTensor.writtenOnce_iff`).
-/

namespace HyperParallel.Checkpoint

/-! ### The load of the ranks -/

section Loads

variable {b : Bool} {load : ℕ → ℕ} {items items' : List (ℕ × List Slot)} {slots : List Slot}
  {slot : Slot} {rank : ℕ}

/-- `storage_sizes` after the items. -/
def loadsAfter (b : Bool) : (ℕ → ℕ) → List (ℕ × List Slot) → ℕ → ℕ
  | load, [] => load
  | load, (size, slots) :: rest =>
      let owner := ownerSlot b load slots
      loadsAfter b (Function.update load owner.1 (load owner.1 + size)) rest

theorem assignOwners_append : assignOwners b load (items ++ items') =
    assignOwners b load items ++ assignOwners b (loadsAfter b load items) items' := by
  induction items generalizing load with
  | nil => rfl
  | cons entry items ih =>
    rw [List.cons_append, assignOwners, ih, assignOwners, loadsAfter]
    rfl

theorem le_loadsAfter (rank : ℕ) : load rank ≤ loadsAfter b load items rank := by
  induction items generalizing load with
  | nil => exact le_rfl
  | cons entry items ih =>
    apply le_trans _ ih
    by_cases hrank : rank = (ownerSlot b load entry.2).1
    · subst hrank
      rw [Function.update_self]
      apply Nat.le_add_right
    · rw [Function.update_of_ne hrank]

/-- A rank that holds none of the items gets none. -/
theorem loadsAfter_of_idle (hne : ∀ entry ∈ items, entry.2 ≠ [])
    (hidle : ∀ entry ∈ items, ∀ slot ∈ entry.2, slot.1 ≠ rank) :
    loadsAfter b load items rank = load rank := by
  induction items generalizing load with
  | nil => rfl
  | cons entry items ih =>
    rw [List.forall_mem_cons] at hne hidle
    have hmem : ownerSlot b load entry.2 ∈ entry.2 := ownerSlot_mem hne.1
    show loadsAfter b _ items rank = _
    rw [ih hne.2 hidle.2, Function.update_of_ne (hidle.1 _ hmem).symm]

/-- A rank that alone holds an item gets it. -/
theorem loadsAfter_pos {size : ℕ} (hmem : (size, [slot]) ∈ items) (hsize : 0 < size) :
    0 < loadsAfter b load items slot.1 := by
  induction items generalizing load with
  | nil => cases hmem
  | cons entry items ih =>
    rcases List.mem_cons.1 hmem with rfl | hmem
    · have howner : ownerSlot b load [slot] = slot := by
        cases b <;> rfl
      rw [loadsAfter, howner]
      refine lt_of_lt_of_le ?_ (le_loadsAfter slot.1)
      rw [Function.update_self]
      omega
    · exact ih hmem

theorem leastLoadedOwnerSlot_eq_zero (hslot : slot ∈ slots) (hload : load slot.1 = 0) :
    load (leastLoadedOwnerSlot load slots).1 = 0 := by
  have hfold : ∀ (l : List Slot) (best : Slot), (load best.1 = 0 ∨ ∃ s ∈ l, load s.1 = 0) →
      load (l.foldl (fun best s => if load s.1 < load best.1 then s else best) best).1 = 0 := by
    intro l
    induction l with
    | nil =>
      rintro best (hbest | ⟨s, hs, -⟩)
      · exact hbest
      · cases hs
    | cons s l ih =>
      intro best h
      rw [List.foldl_cons]
      apply ih
      rcases h with hbest | ⟨s', hs', hzero⟩
      · left
        rw [if_neg (by omega)]
        exact hbest
      · rcases List.mem_cons.1 hs' with rfl | hs'
        · left
          split_ifs
          · exact hzero
          · omega
        · exact .inr ⟨s', hs', hzero⟩
  obtain ⟨first, slots, rfl⟩ := List.exists_cons_of_ne_nil (List.ne_nil_of_mem hslot)
  apply hfold
  rcases List.mem_cons.1 hslot with rfl | hslot
  · exact .inl hload
  · exact .inr ⟨slot, hslot, hload⟩

/-- An idle rank takes the item that it holds, if the other holders have one of their own. -/
theorem slot_mem_assignOwners {size : ℕ} (hslot : slot ∈ slots)
    (hne : ∀ entry ∈ items, entry.2 ≠ [])
    (hidle : ∀ entry ∈ items, ∀ s ∈ entry.2, s.1 ≠ slot.1)
    (hbusy : ∀ s ∈ slots, s ≠ slot → ∃ size s', (size, [s']) ∈ items ∧ 0 < size ∧ s'.1 = s.1) :
    slot ∈ assignOwners false (fun _ => 0) (items ++ (size, slots) :: items') := by
  rw [assignOwners_append]
  refine List.mem_append_right _ (List.mem_cons.2 (.inl ?_))
  have hzero : loadsAfter false (fun _ => 0) items slot.1 = 0 := loadsAfter_of_idle hne hidle
  have howner : ownerSlot false (loadsAfter false (fun _ => 0) items) slots ∈ slots :=
    ownerSlot_mem (List.ne_nil_of_mem hslot)
  by_contra hother
  obtain ⟨size, s', hmem, hsize, hs'⟩ := hbusy _ howner (Ne.symm hother)
  have hpos : 0 < loadsAfter false (fun _ => 0) items s'.1 := loadsAfter_pos hmem hsize
  rw [hs'] at hpos
  have hleast := leastLoadedOwnerSlot_eq_zero hslot hzero
  exact hpos.ne' hleast

end Loads

/-! ### The owner of a key -/

section Owner

variable {plans : List (List WriteItem)} {key : String × List ℕ} {slot : Slot}

theorem itemSize_pos (key : String × List ℕ) : 0 < itemSize plans key := by
  unfold itemSize
  split
  · split
    · split_ifs <;> omega
    · exact Nat.one_pos
  · exact Nat.one_pos

theorem nodup_holders : (holders plans key).Nodup :=
  (nodup_occurrences plans).sublist (List.filter_sublist.map _)

/-- A key that only one place holds. -/
theorem holders_eq_singleton (h : ∀ s, s ∈ holders plans key ↔ s = slot) :
    holders plans key = [slot] := by
  apply List.perm_singleton.1
  rw [List.perm_ext_iff_of_nodup nodup_holders (List.nodup_singleton _)]
  intro s
  rw [h, List.mem_singleton]

/-- The one item of a rank stays with it, if the other holders have an item of their own. -/
theorem slot_mem_planOwnershipMasks (hslot : slot ∈ holders plans key)
    (hshared : 1 < (holders plans key).length)
    (honly : ∀ s item, itemAt plans s = some item → s.1 = slot.1 → s = slot)
    (hbusy : ∀ s ∈ holders plans key, s ≠ slot → ∃ s' key', s'.1 = s.1 ∧
      holders plans key' = [s']) :
    slot ∈ planOwnershipMasks plans false := by
  have hkey : key ∈ indexKeys plans := mem_indexKeys.2 ⟨slot, hslot⟩
  have hduplicate : (itemSize plans key, holders plans key) ∈ duplicates plans false := by
    rw [duplicates, if_neg Bool.false_ne_true, (List.perm_insertionSort _ _).mem_iff]
    exact List.mem_map.2 ⟨key, List.mem_filter.2 ⟨hkey, by simpa using hshared⟩, rfl⟩
  obtain ⟨before, after, hsplit⟩ := List.append_of_mem hduplicate
  rw [planOwnershipMasks, hsplit, ← List.append_assoc]
  have hpairwise := pairwise_disjoint_slots plans false
  have hentry : ∀ entry ∈ holdings plans false ++ before, ∃ key' ∈ indexKeys plans,
      entry.2 = holders plans key' := by
    intro entry hentry
    have hmem : entry ∈ holdings plans false ++ duplicates plans false := by
      rw [hsplit, ← List.append_assoc]
      exact List.mem_append_left _ hentry
    exact exists_key hmem
  apply slot_mem_assignOwners hslot
  · intro entry hmem
    obtain ⟨key', hkey', heq⟩ := hentry entry hmem
    rw [heq]
    exact holders_ne_nil hkey'
  · intro entry hmem s hs hplan
    -- the place of the rank is in no other entry
    obtain ⟨key', -, heq⟩ := hentry entry hmem
    obtain ⟨item, hitem, -⟩ := mem_holders.1 (heq ▸ hs)
    obtain rfl := honly s item hitem hplan
    rw [hsplit, ← List.append_assoc, List.map_append, List.pairwise_append] at hpairwise
    exact hpairwise.2.2 _ (List.mem_map_of_mem hmem) _ (List.mem_map_of_mem List.mem_cons_self) hs
      hslot
  · intro s hs hne
    obtain ⟨s', key', hs', hholders⟩ := hbusy s hs hne
    refine ⟨itemSize plans key', s', List.mem_append_left _ ?_, itemSize_pos key', hs'⟩
    rw [← hholders]
    have hkey' : key' ∈ indexKeys plans := mem_indexKeys.2 ⟨s', by simp [hholders]⟩
    exact List.mem_map.2 ⟨key', List.mem_filter.2 ⟨hkey', by simp [hholders]⟩, rfl⟩

end Owner

/-! ### The loop does not fail -/

section Runs

/-- What all items say of one name is the same. -/
theorem exists_foldlM_add (known : String → TensorProperties × List ℕ)
    {walked : List (Bool × WriteItem)} {s : GlobalState}
    (hs : ∀ fqn properties size chunks, s.fqnInfo.lookup fqn = some (properties, size, chunks) →
      known fqn = (properties, size))
    (hwalked : ∀ entry ∈ walked, ∃ data, entry.2.data = .tensor data ∧
      known entry.2.index.fqn = (data.properties, data.size)) :
    ∃ s', walked.foldlM (fun s entry => GlobalState.add s entry.1 entry.2) s = .ok s' := by
  induction walked generalizing s with
  | nil => exact ⟨s, rfl⟩
  | cons entry walked ih =>
    rw [List.forall_mem_cons] at hwalked
    obtain ⟨⟨data, hdata, hknown⟩, hrest⟩ := hwalked
    have hadd : ∃ ownItems chunks, s.add entry.1 entry.2 = .ok { s with
        fqnInfo := Dict.set s.fqnInfo entry.2.index.fqn (data.properties, data.size, chunks)
        ownItems := ownItems } := by
      simp only [GlobalState.add, hdata]
      cases hlookup : s.fqnInfo.lookup entry.2.index.fqn with
      | none => exact ⟨_, _, rfl⟩
      | some value =>
        obtain ⟨properties, size, chunks⟩ := value
        have hsame := hs _ _ _ _ hlookup
        rw [hknown, Prod.mk.injEq] at hsame
        have hequal : ¬(properties ≠ data.properties ∨ size ≠ data.size) := by
          simp [hsame]
        simp only [hequal, if_false]
        exact ⟨_, _, rfl⟩
    obtain ⟨ownItems, chunks, hadd⟩ := hadd
    rw [List.foldlM_cons, hadd]
    apply ih _ hrest
    intro fqn properties size chunks' hlookup
    rw [Dict.lookup_set] at hlookup
    split_ifs at hlookup with hfqn
    · simp only [Option.some.injEq, Prod.mk.injEq] at hlookup
      rw [hfqn, hknown, hlookup.1, hlookup.2.1]
    · exact hs fqn properties size chunks' hlookup

end Runs

/-! ### A save in which one rank is idle -/

namespace ShardedTensor

section Crowd

variable (t : ShardedTensor) (idle : ℕ)

/-- A name that is not that of the tensor. -/
def otherName : String := t.fqn ++ "_"

theorem otherName_ne : t.otherName ≠ t.fqn := by
  intro h
  have hlen := congrArg String.length h
  rw [otherName, String.length_append] at hlen
  have hone : "_".length = 1 := rfl
  omega

/-- What a rank writes of the other tensor: a tensor with a chunk for each rank. -/
def otherItem (rank : ℕ) : WriteItem :=
  tensorItem t.otherName "float32" ⟨[rank], [1]⟩ [t.worldSize]

/-- Every rank but one has a chunk of the other tensor. -/
def crowd : t.Rest where
  before rank := if rank = idle then [] else
    [(t.otherName, .tensor [1] "float32" (some (⟨[rank], [1]⟩, [t.worldSize])))]
  after _ := []
  fqn_before rank entry hentry := by
    split_ifs at hentry
    · cases hentry
    · obtain rfl := List.mem_singleton.1 hentry
      exact t.otherName_ne
  fqn_after _ _ hentry := by cases hentry

/-- The plan of a rank. -/
def crowdPlan (rank : ℕ) : SavePlan :=
  ⟨if rank = idle then [t.localItem rank] else [t.otherItem rank, t.localItem rank], none⟩

theorem buildLocalPlan_crowd {rank : ℕ} (h : rank < t.worldSize) :
    StandardSavePlanner.buildLocalPlan rank ((t.crowd idle).stateDict rank) none =
      .ok (t.crowdPlan idle rank) := by
  unfold StandardSavePlanner.buildLocalPlan Rest.stateDict crowd crowdPlan
  by_cases hidle : rank = idle
  · simp only [hidle, if_true, List.nil_append, List.mapM_cons, List.mapM_nil]
    rw [← hidle, writeItem_value h]
    rfl
  · simp only [hidle, if_false, List.singleton_append, List.mapM_cons, List.mapM_nil]
    rw [writeItem_value h]
    rfl

/-- The plans of all ranks. -/
def crowdPlans : List SavePlan :=
  (List.range t.worldSize).map (t.crowdPlan idle)

theorem mapM_crowd : ((List.range t.worldSize).mapM fun rank =>
    StandardSavePlanner.buildLocalPlan rank ((t.crowd idle).stateDict rank) none) =
      .ok (t.crowdPlans idle) :=
  ExceptList.mapM_of_forall fun _ hrank => t.buildLocalPlan_crowd idle (List.mem_range.1 hrank)

variable {t} {idle} {slot : Slot} {item : WriteItem} {rank : ℕ}

/-- The items and their places. -/
theorem itemAt_crowd : itemAt ((t.crowdPlans idle).map SavePlan.items) slot = some item ↔
    slot.1 < t.worldSize ∧
      ((slot.2 = (if slot.1 = idle then 0 else 1) ∧ item = t.localItem slot.1) ∨
        (slot.1 ≠ idle ∧ slot.2 = 0 ∧ item = t.otherItem slot.1)) := by
  obtain ⟨r, i⟩ := slot
  have hplan : ((t.crowdPlans idle).map SavePlan.items)[r]? =
      if r < t.worldSize then some (t.crowdPlan idle r).items else none := by
    rw [crowdPlans, List.map_map, List.getElem?_map]
    split_ifs with hr
    · rw [List.getElem?_range hr]
      rfl
    · rw [List.getElem?_eq_none (by rw [List.length_range]; omega)]
      rfl
  rw [itemAt, hplan]
  by_cases hr : r < t.worldSize
  · rw [if_pos hr, Option.bind_some, crowdPlan]
    by_cases hidle : r = idle
    · cases i <;> simp [hidle, hidle ▸ hr, eq_comm]
    · rcases i with _ | _ | i <;> simp [hr, hidle, eq_comm]
  · simp [hr]

theorem index_localItem (rank : ℕ) :
    (t.localItem rank).index.key = (t.fqn, (t.localChunk rank).offsets) := rfl

theorem index_otherItem (rank : ℕ) : (t.otherItem rank).index.key = (t.otherName, [rank]) := rfl

/-- Every rank can make its global plan. -/
theorem exists_saves (t : ShardedTensor) (idle : ℕ) (saveToMinimumRank : Bool) : ∃ results,
    (t.crowd idle).Saves (fun _ => none) saveToMinimumRank false results := by
  have hglobal : ∀ rank < t.worldSize, ∃ result, StandardSavePlanner.buildGlobalPlan rank
      ⟨true, saveToMinimumRank⟩ false (t.crowdPlans idle) = .ok result := by
    intro rank hrank
    have hlength : (t.crowdPlans idle).length = t.worldSize := by
      rw [crowdPlans, List.length_map, List.length_range]
    have hown : ∃ plan, (t.crowdPlans idle)[if 1 < (t.crowdPlans idle).length then rank else 0]? =
        some plan := by
      refine ⟨_, List.getElem?_eq_getElem ?_⟩
      rw [hlength]
      split_ifs <;> omega
    obtain ⟨ownPlan, hown⟩ := hown
    unfold StandardSavePlanner.buildGlobalPlan
    simp only [hown]
    generalize (if 1 < (t.crowdPlans idle).length then rank else 0) = ownIndex
    have hwalked : ∀ entry ∈ (walkedItems ⟨true, saveToMinimumRank⟩
        ((t.crowdPlans idle).map SavePlan.items)).zipIdx.flatMap fun plan =>
          plan.1.map fun item => (decide (plan.2 = ownIndex), item),
        ∃ data, entry.2.data = .tensor data ∧
          (if entry.2.index.fqn = t.fqn then ((⟨t.dtype, false, none⟩ : TensorProperties), t.shape)
            else (⟨"float32", false, none⟩, [t.worldSize])) = (data.properties, data.size) := by
      intro entry hentry
      obtain ⟨plan, hplan, hmem⟩ := List.mem_flatMap.1 hentry
      obtain ⟨item, hitem, rfl⟩ := List.mem_map.1 hmem
      have hkept : item ∈ keptAll saveToMinimumRank (t.crowdPlans idle) :=
        List.mem_flatten.2 ⟨plan.1, List.fst_mem_of_mem_zipIdx hplan, hitem⟩
      obtain ⟨slot, hslot⟩ := exists_itemAt_of_kept hkept
      obtain ⟨-, ⟨-, rfl⟩ | ⟨-, -, rfl⟩⟩ := itemAt_crowd.1 hslot
      · exact ⟨_, rfl, if_pos rfl⟩
      · exact ⟨_, rfl, if_neg t.otherName_ne⟩
    obtain ⟨s, hs⟩ := exists_foldlM_add (fun fqn => if fqn = t.fqn then
      (⟨t.dtype, false, none⟩, t.shape) else (⟨"float32", false, none⟩, [t.worldSize]))
      (s := ⟨[], [], []⟩) (fun _ _ _ _ h => by cases h) hwalked
    rw [hs]
    exact ⟨_, rfl⟩
  have hnonempty : Nonempty (SavePlan × SaveMetadata) := ⟨⟨[], none⟩, [], none, none⟩
  choose! results hresults using hglobal
  exact ⟨results, t.crowdPlans idle, t.mapM_crowd idle, hresults⟩

/-- The idle rank keeps its chunk. -/
theorem localItem_mem_keptAll {rank : ℕ} (hidle : idle < t.worldSize) (hrank : rank < t.worldSize)
    (hne : rank ≠ idle) (hoffsets : (t.localChunk rank).offsets = (t.localChunk idle).offsets) :
    t.localItem idle ∈ keptAll false (t.crowdPlans idle) := by
  have hlength : (t.crowdPlans idle).length = t.worldSize := by
    rw [crowdPlans, List.length_map, List.length_range]
  have hat : itemAt ((t.crowdPlans idle).map SavePlan.items) (idle, 0) = some (t.localItem idle) :=
    itemAt_crowd.2 ⟨hidle, .inl ⟨(if_pos rfl).symm, rfl⟩⟩
  have hrankAt : itemAt ((t.crowdPlans idle).map SavePlan.items) (rank, 1) =
      some (t.localItem rank) :=
    itemAt_crowd.2 ⟨hrank, .inl ⟨(if_neg hne).symm, rfl⟩⟩
  have howner : ((idle, 0) : Slot) ∈
      planOwnershipMasks ((t.crowdPlans idle).map SavePlan.items) false := by
    have hslot : ((idle, 0) : Slot) ∈ holders ((t.crowdPlans idle).map SavePlan.items)
        (t.fqn, (t.localChunk idle).offsets) := mem_holders.2 ⟨_, hat, rfl⟩
    apply slot_mem_planOwnershipMasks hslot
    · have hmem : ((rank, 1) : Slot) ∈ holders ((t.crowdPlans idle).map SavePlan.items)
          (t.fqn, (t.localChunk idle).offsets) :=
        mem_holders.2 ⟨_, hrankAt, by rw [index_localItem, hoffsets]⟩
      by_contra hlen
      generalize holders ((t.crowdPlans idle).map SavePlan.items)
        (t.fqn, (t.localChunk idle).offsets) = l at hmem hslot hlen
      obtain ⟨s, rfl⟩ := List.length_eq_one_iff.1
        (by have := List.length_pos_of_mem hmem; omega : l.length = 1)
      rw [List.mem_singleton] at hmem hslot
      exact hne (Prod.mk.inj (hmem.trans hslot.symm)).1
    · intro s item hitem hs
      obtain ⟨-, ⟨hs2, -⟩ | ⟨hother, -⟩⟩ := itemAt_crowd.1 hitem
      · exact Prod.ext hs (by rw [hs2, if_pos hs])
      · exact absurd hs hother
    · intro s hs hsne
      obtain ⟨item, hitem, hkey⟩ := mem_holders.1 hs
      obtain ⟨hlt, hcase⟩ := itemAt_crowd.1 hitem
      have hs1 : s.1 ≠ idle := by
        intro h
        rcases hcase with ⟨hs2, -⟩ | ⟨hother, -⟩
        · exact hsne (Prod.ext h (by rw [hs2, if_pos h]))
        · exact hother h
      refine ⟨(s.1, 0), (t.otherName, [s.1]), rfl, holders_eq_singleton fun s' => ?_⟩
      rw [mem_holders]
      constructor
      · rintro ⟨item', hitem', hkey'⟩
        obtain ⟨-, ⟨-, rfl⟩ | ⟨-, hs2, rfl⟩⟩ := itemAt_crowd.1 hitem'
        · exact absurd (Prod.mk.inj hkey').1.symm t.otherName_ne
        · rw [index_otherItem] at hkey'
          exact Prod.ext (by simpa using hkey') hs2
      · rintro rfl
        exact ⟨_, itemAt_crowd.2 ⟨hlt, .inr ⟨hs1, rfl, rfl⟩⟩, rfl⟩
  rw [keptAll, walkedItems, if_pos ⟨rfl, by rw [List.length_map, hlength]; omega⟩,
    flatten_keptItems]
  exact List.mem_map.2 ⟨(t.localItem idle, (idle, 0)),
    List.mem_filter.2 ⟨mem_occurrences.2 hat, decide_eq_true howner⟩, rfl⟩

end Crowd

/-! ### Every save -/

section Iff

variable (t : ShardedTensor)

/-- The tensor is written in every save exactly when no empty shard starts where a non-empty one
does. -/
theorem writtenOnce_iff :
    (∀ (rest : t.Rest) (nameMapping : ℕ → Option NameMapping) (saveToMinimumRank flattened : Bool)
      (results : ℕ → SavePlan × SaveMetadata),
      rest.Saves nameMapping saveToMinimumRank flattened results → t.WrittenOnce results) ↔
        t.EmptyShardsApart := by
  constructor
  · intro h rank hrank idle hidle hoffsets hne
    by_contra hempty
    have hdiff : rank ≠ idle := by
      rintro rfl
      exact hempty hne
    obtain ⟨results, hsaves⟩ := t.exists_saves idle false
    have hcount := (h _ _ _ _ _ hsaves).once rank hrank hne
    obtain ⟨plans, hmapM, hglobal⟩ := hsaves
    obtain rfl : t.crowdPlans idle = plans := Except.ok.inj ((t.mapM_crowd idle).symm.trans hmapM)
    have hplans := plans_of_mapM hmapM
    obtain ⟨owner, -, -, hfilter⟩ := exists_kept hplans false hrank
    -- the kept item at the start is that of the empty shard
    have hkept := localItem_mem_keptAll hidle hrank hdiff hoffsets
    have hitem : t.localItem idle = t.localItem owner := by
      rw [← List.mem_singleton, ← hfilter]
      exact List.mem_filter.2 ⟨hkept, by rw [index_localItem, hoffsets]; exact decide_eq_true rfl⟩
    have howner : t.localChunk idle = t.localChunk owner := by
      have hchunk := congrArg (chunkOf t.fqn) hitem
      simpa using hchunk
    rw [(chunksWritten_eq hplans hglobal).1, count_writtenChunks hplans hfilter, ← howner,
      if_neg] at hcount
    · cases hcount
    · intro heq
      rw [heq] at hempty
      exact hempty hne
  · intro h rest nameMapping saveToMinimumRank flattened results
    apply writtenOnce_of_emptyShardsApart h

end Iff

/-- A bias of two elements, cut by the inner mesh dimension and then, with chunks of the size rounded
up, by the outer one. -/
def bias : ShardedTensor where
  fqn := "b.bias"
  dtype := "float32"
  shape := [2]
  layout := ⟨[2, 2], [.axes [0, 1]], [0], [0, 1, 2, 3]⟩
  mesh_pos := by decide
  isTensorMap := ⟨by decide, by decide⟩
  length_tensorMap := rfl
  rankList := by decide

/-- Before it stands a bias with the same layout. -/
def twoBiases : bias.Rest where
  before rank := [("a.bias", bias.value rank)]
  after _ := []
  fqn_before _ entry hentry := by
    obtain rfl := List.mem_singleton.1 hentry
    show "a.bias" ≠ "b.bias"
    decide
  fqn_after _ _ hentry := by cases hentry

/-- The element 1 of the second bias is not written: rank 1 already writes it of the first. -/
theorem not_writtenOnce_twoBiases : ∃ results,
    twoBiases.Saves (fun _ => none) false false results ∧ ¬bias.WrittenOnce results := by
  refine ⟨fun rank => ((StandardSavePlanner.buildGlobalPlan rank ⟨true, false⟩ false
    ((List.range 4).map fun rank => ⟨[tensorItem "a.bias" "float32" (bias.localChunk rank) [2],
      bias.localItem rank], none⟩)).toOption).getD ⟨⟨[], none⟩, [], none, none⟩, ⟨_, rfl, ?_⟩, ?_⟩
  · decide +kernel
  · intro h
    have hcount := h.once 1 (by decide) ⟨[1], by decide⟩
    revert hcount
    decide +kernel

end ShardedTensor

end HyperParallel.Checkpoint

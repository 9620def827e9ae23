import HyperParallel.Checkpoint.SavePlan
import Mathlib.Data.List.Sigma

/-!
# Who writes what

`plan_ownership_masks` gives every key to exactly one of the places that hold it
(`exists_unique_owner`), and the loop of `build_global_plan` collects exactly the items that are
kept (`foldlM_add`).
-/

namespace HyperParallel.Checkpoint

/-! ### Places -/

section Places

variable {plans : List (List WriteItem)} {key : String × List ℕ} {item : WriteItem} {slot : Slot}

/-- The item at a place. -/
def itemAt (plans : List (List WriteItem)) (slot : Slot) : Option WriteItem :=
  plans[slot.1]?.bind fun plan => plan[slot.2]?

theorem mem_occurrences : (item, slot) ∈ occurrences plans ↔ itemAt plans slot = some item := by
  obtain ⟨p, i⟩ := slot
  simp only [occurrences, List.mem_flatMap, List.mem_map, itemAt, Prod.mk.injEq,
    Option.bind_eq_some_iff]
  constructor
  · rintro ⟨⟨plan, p'⟩, hplan, ⟨item', i'⟩, hitem, rfl, rfl, rfl⟩
    exact ⟨plan, List.mem_zipIdx_iff_getElem?.1 hplan, List.mem_zipIdx_iff_getElem?.1 hitem⟩
  · rintro ⟨plan, hplan, hitem⟩
    exact ⟨(plan, p), List.mem_zipIdx_iff_getElem?.2 hplan, (item, i),
      List.mem_zipIdx_iff_getElem?.2 hitem, rfl, rfl, rfl⟩

theorem mem_holders : slot ∈ holders plans key ↔
    ∃ item, itemAt plans slot = some item ∧ item.index.key = key := by
  simp only [holders, List.mem_map, List.mem_filter, decide_eq_true_eq]
  constructor
  · rintro ⟨⟨item, slot⟩, ⟨hmem, hkey⟩, rfl⟩
    exact ⟨item, mem_occurrences.1 hmem, hkey⟩
  · rintro ⟨item, hitem, hkey⟩
    exact ⟨(item, slot), ⟨mem_occurrences.2 hitem, hkey⟩, rfl⟩

theorem mem_indexKeys : key ∈ indexKeys plans ↔ ∃ slot, slot ∈ holders plans key := by
  rw [indexKeys, Dict.mem_firstKeys]
  constructor
  · rintro ⟨⟨item, slot⟩, hmem, hkey⟩
    exact ⟨slot, mem_holders.2 ⟨item, mem_occurrences.1 hmem, hkey⟩⟩
  · rintro ⟨slot, hslot⟩
    obtain ⟨item, hitem, hkey⟩ := mem_holders.1 hslot
    exact ⟨(item, slot), mem_occurrences.2 hitem, hkey⟩

/-- The places of different keys are different. -/
theorem disjoint_holders {key' : String × List ℕ} (h : key ≠ key') :
    (holders plans key).Disjoint (holders plans key') := by
  intro slot hslot hslot'
  obtain ⟨item, hitem, hkey⟩ := mem_holders.1 hslot
  obtain ⟨item', hitem', hkey'⟩ := mem_holders.1 hslot'
  rw [hitem, Option.some.injEq] at hitem'
  exact h (by rw [← hkey, hitem', hkey'])

end Places

/-! ### Owners -/

section Owners

variable {plans : List (List WriteItem)} {saveToMinimumRank : Bool} {storageSizes : ℕ → ℕ}
  {slots : List Slot} {key : String × List ℕ}

theorem ownerSlot_mem (h : slots ≠ []) :
    ownerSlot saveToMinimumRank storageSizes slots ∈ slots := by
  obtain ⟨slot, slots, rfl⟩ := List.exists_cons_of_ne_nil h
  unfold ownerSlot
  split_ifs with hmin
  · exact List.mem_cons_self
  · exact Dict.foldl_choice_mem (fun slot best => storageSizes slot.1 < storageSizes best.1) slots
      slot

/-- Every item gets a place that holds it. -/
theorem forall₂_assignOwners (saveToMinimumRank : Bool) (storageSizes : ℕ → ℕ)
    {items : List (ℕ × List Slot)} (h : ∀ entry ∈ items, entry.2 ≠ []) :
    List.Forall₂ (fun l slot => slot ∈ l) (items.map Prod.snd)
      (assignOwners saveToMinimumRank storageSizes items) := by
  induction items generalizing storageSizes with
  | nil => exact .nil
  | cons entry items ih =>
    rw [List.forall_mem_cons] at h
    obtain ⟨size, slots⟩ := entry
    exact .cons (ownerSlot_mem h.1) (ih _ h.2)

/-- The items are dealt out in some order of their keys. -/
theorem perm_slots (plans : List (List WriteItem)) (saveToMinimumRank : Bool) :
    ((holdings plans false ++ duplicates plans saveToMinimumRank).map Prod.snd).Perm
      ((indexKeys plans).map (holders plans)) := by
  have hduplicates : (duplicates plans saveToMinimumRank).Perm (holdings plans true) := by
    unfold duplicates
    split_ifs with hmin
    · exact .refl _
    · exact List.perm_insertionSort _ _
  have hholdings : ∀ several, (holdings plans several).map Prod.snd =
      ((indexKeys plans).filter fun key =>
        decide (1 < (holders plans key).length) = several).map (holders plans) := by
    intro several
    rw [holdings, List.map_map]
    rfl
  rw [List.map_append]
  refine ((hduplicates.map Prod.snd).append_left _).trans ?_
  rw [hholdings, hholdings, ← List.map_append]
  refine List.Perm.map _ (List.perm_append_comm.trans ?_)
  have hsplit := List.filter_append_perm (fun key => decide (1 < (holders plans key).length))
    (indexKeys plans)
  simpa only [Bool.decide_eq_true, Bool.decide_eq_false] using hsplit

/-- No place is dealt out twice. -/
theorem pairwise_disjoint_slots (plans : List (List WriteItem)) (saveToMinimumRank : Bool) :
    ((holdings plans false ++ duplicates plans saveToMinimumRank).map Prod.snd).Pairwise
      List.Disjoint := by
  refine ((perm_slots plans saveToMinimumRank).pairwise_iff fun h => h.symm).2
    (List.pairwise_map.2 ?_)
  exact List.Pairwise.imp (fun hne => disjoint_holders hne) Dict.nodup_firstKeys

/-- What is dealt out are the places of a key. -/
theorem exists_key {entry : ℕ × List Slot}
    (h : entry ∈ holdings plans false ++ duplicates plans saveToMinimumRank) :
    ∃ key ∈ indexKeys plans, entry.2 = holders plans key := by
  obtain ⟨key, hkey, heq⟩ := List.mem_map.1 ((perm_slots plans saveToMinimumRank).mem_iff.1
    (List.mem_map_of_mem (f := Prod.snd) h))
  exact ⟨key, hkey, heq.symm⟩

theorem holders_ne_nil (h : key ∈ indexKeys plans) : holders plans key ≠ [] := by
  obtain ⟨slot, hslot⟩ := mem_indexKeys.1 h
  exact List.ne_nil_of_mem hslot

/-- Every key has exactly one owner. -/
theorem exists_unique_owner (saveToMinimumRank : Bool) (hkey : key ∈ indexKeys plans) :
    ∃ slot ∈ planOwnershipMasks plans saveToMinimumRank, slot ∈ holders plans key ∧
      ∀ other ∈ planOwnershipMasks plans saveToMinimumRank, other ∈ holders plans key →
        other = slot := by
  have hmem : ∀ entry ∈ holdings plans false ++ duplicates plans saveToMinimumRank,
      entry.2 ≠ [] := by
    intro entry hentry
    obtain ⟨k, hk, heq⟩ := exists_key hentry
    rw [heq]
    exact holders_ne_nil hk
  apply Dict.exists_unique_choice (forall₂_assignOwners saveToMinimumRank (fun _ => 0) hmem)
  · exact pairwise_disjoint_slots plans saveToMinimumRank
  · exact (perm_slots plans saveToMinimumRank).mem_iff.2 (List.mem_map_of_mem hkey)

theorem nodup_occurrences (plans : List (List WriteItem)) :
    ((occurrences plans).map Prod.snd).Nodup := by
  rw [occurrences, List.map_flatMap, List.nodup_flatMap]
  constructor
  · intro plan _
    rw [List.map_map]
    have hinj := (List.nodup_zipIdx_map_snd plan.1).map (f := fun i => (plan.2, i)) fun i j h => (Prod.mk.inj h).2
    rwa [List.map_map] at hinj
  · refine List.Pairwise.imp ?_ (List.pairwise_map.1 (List.nodup_zipIdx_map_snd plans))
    intro plan plan' hne slot hslot hslot'
    simp only [List.map_map, List.mem_map, Function.comp_apply] at hslot hslot'
    obtain ⟨_, -, rfl⟩ := hslot
    obtain ⟨_, -, heq⟩ := hslot'
    exact hne (Prod.mk.inj heq).1.symm

/-- The kept items of all plans are the items whose place is kept. -/
theorem flatten_keptItems (owned : List Slot) (plans : List (List WriteItem)) :
    (plans.zipIdx.map fun plan => keptItems owned plan.2 plan.1).flatten =
      ((occurrences plans).filter fun entry => entry.2 ∈ owned).map Prod.fst := by
  rw [occurrences, List.filter_flatMap, List.map_flatMap, List.flatMap_def]
  congr 1
  refine List.map_congr_left fun plan _ => ?_
  rw [keptItems, List.filter_map, List.map_map]
  rfl

/-- Of the items with one key exactly one is kept. -/
theorem filter_kept_eq_singleton (saveToMinimumRank : Bool) (hkey : key ∈ indexKeys plans) :
    ∃ slot item, itemAt plans slot = some item ∧ item.index.key = key ∧
      ((plans.zipIdx.map fun plan => keptItems (planOwnershipMasks plans saveToMinimumRank) plan.2
        plan.1).flatten.filter fun item => item.index.key = key) = [item] := by
  obtain ⟨slot, howned, hslot, hunique⟩ := exists_unique_owner saveToMinimumRank hkey
  obtain ⟨item, hitem, hitemkey⟩ := mem_holders.1 hslot
  refine ⟨slot, item, hitem, hitemkey, ?_⟩
  rw [flatten_keptItems, List.filter_map, List.filter_filter]
  have hnodup : (occurrences plans).Nodup := List.Nodup.of_map _ (nodup_occurrences plans)
  have hfilter : ((occurrences plans).filter fun entry =>
      ((fun item : WriteItem => decide (item.index.key = key)) ∘ Prod.fst) entry &&
        decide (entry.2 ∈ planOwnershipMasks plans saveToMinimumRank)) =
      (occurrences plans).filter fun entry => entry = (item, slot) := by
    refine List.filter_congr fun entry hentry => ?_
    obtain ⟨item', slot'⟩ := entry
    have hitem' := mem_occurrences.1 hentry
    rw [Bool.eq_iff_iff]
    simp only [Function.comp_apply, Bool.and_eq_true, decide_eq_true_eq, Prod.mk.injEq]
    constructor
    · rintro ⟨hk, ho⟩
      obtain rfl := hunique slot' ho (mem_holders.2 ⟨item', hitem', hk⟩)
      rw [hitem, Option.some.injEq] at hitem'
      exact ⟨hitem'.symm, rfl⟩
    · rintro ⟨rfl, rfl⟩
      exact ⟨hitemkey, howned⟩
  rw [hfilter, List.filter_eq, List.count_eq_one_of_mem hnodup (mem_occurrences.2 hitem)]
  rfl

end Owners

/-! ### The loop of the global plan -/

section Loop

variable {s s' : GlobalState} {fqn : String} {isOwnPlan : Bool} {item : WriteItem}

/-- The chunk of a tensor that an item writes. -/
def chunkOf (fqn : String) (item : WriteItem) : Option ChunkStorageMetadata :=
  match item.data with
  | .tensor data => if item.index.fqn = fqn then some data.chunk else none
  | .byteIo => none

/-- The chunks of a tensor that a plan writes. -/
def writtenChunks (fqn : String) (items : List WriteItem) : List ChunkStorageMetadata :=
  items.filterMap (chunkOf fqn)

theorem writtenChunks_append (items items' : List WriteItem) :
    writtenChunks fqn (items ++ items') = writtenChunks fqn items ++ writtenChunks fqn items' :=
  List.filterMap_append

/-- The chunks of a tensor in `fqn_info`. -/
def GlobalState.chunks (s : GlobalState) (fqn : String) : List ChunkStorageMetadata :=
  match s.fqnInfo.lookup fqn with
  | some entry => entry.2.2
  | none => []

/-- What one turn of the loop does. -/
structure GlobalState.AddStep (fqn : String) (isOwnPlan : Bool) (item : WriteItem) (s s' : GlobalState) :
    Prop where
  chunks : s'.chunks fqn = s.chunks fqn ++ (chunkOf fqn item).toList
  ownItems : writtenChunks fqn s'.ownItems =
    writtenChunks fqn s.ownItems ++ if isOwnPlan then (chunkOf fqn item).toList else []
  nodup : (s.fqnInfo.map Prod.fst).Nodup → (s'.fqnInfo.map Prod.fst).Nodup

theorem addStep_of_eq (fqn : String) (h : s.add isOwnPlan item = .ok s') :
    GlobalState.AddStep fqn isOwnPlan item s s' := by
  obtain ⟨⟨name, offset, index⟩, data⟩ := item
  cases data with
  | byteIo =>
    simp only [GlobalState.add, Except.ok.injEq] at h
    subst h
    refine ⟨by simp [chunkOf, GlobalState.chunks], ?_, fun hnodup => hnodup⟩
    cases isOwnPlan with
    | true => simp [writtenChunks, chunkOf]
    | false => simp
  | tensor data =>
    simp only [GlobalState.add] at h
    -- the chunks known so far
    have hchunks : ∃ known, s.chunks name = known ∧
        (⟨Dict.set s.fqnInfo name (data.properties, data.size, known ++ [data.chunk]),
          s.byteNames, if isOwnPlan then
            s.ownItems ++ [⟨⟨name, offset, some known.length⟩, .tensor data⟩]
          else s.ownItems⟩ : GlobalState) = s' := by
      unfold GlobalState.chunks
      cases hlookup : s.fqnInfo.lookup name with
      | none =>
        simp only [hlookup, bind, Except.bind, pure, Except.pure, Except.ok.injEq] at h
        exact ⟨[], rfl, h⟩
      | some entry =>
        obtain ⟨properties, size, known⟩ := entry
        simp only [hlookup, bind, Except.bind] at h
        by_cases hdiff : properties ≠ data.properties ∨ size ≠ data.size
        · rw [if_pos hdiff] at h
          cases h
        · rw [if_neg hdiff] at h
          exact ⟨known, rfl, Except.ok.inj h⟩
    obtain ⟨known, hknown, rfl⟩ := hchunks
    refine ⟨?_, ?_, fun hnodup => Dict.nodup_set hnodup⟩
    · by_cases hfqn : name = fqn
      · subst hfqn
        rw [hknown]
        simp [GlobalState.chunks, Dict.lookup_set, chunkOf]
      · simp [GlobalState.chunks, Dict.lookup_set, chunkOf, hfqn, Ne.symm hfqn]
    · cases isOwnPlan with
      | true =>
        simp only [if_true]
        rw [writtenChunks_append]
        by_cases hfqn : name = fqn <;> simp [writtenChunks, chunkOf, hfqn]
      | false => simp

/-- The loop collects the chunks of all items, and the items of the own plan. -/
theorem foldlM_add (fqn : String) {walked : List (Bool × WriteItem)}
    (h : walked.foldlM (fun s entry => GlobalState.add s entry.1 entry.2) s = .ok s') :
    s'.chunks fqn = s.chunks fqn ++ writtenChunks fqn (walked.map Prod.snd) ∧
      writtenChunks fqn s'.ownItems = writtenChunks fqn s.ownItems ++
        writtenChunks fqn ((walked.filter Prod.fst).map Prod.snd) ∧
      ((s.fqnInfo.map Prod.fst).Nodup → (s'.fqnInfo.map Prod.fst).Nodup) := by
  induction walked generalizing s with
  | nil =>
    obtain rfl := Except.ok.inj h
    exact ⟨(List.append_nil _).symm, (List.append_nil _).symm, fun hnodup => hnodup⟩
  | cons entry walked ih =>
    rw [List.foldlM_cons] at h
    cases hadd : s.add entry.1 entry.2 with
    | error e => simp [hadd, bind, Except.bind] at h
    | ok middle =>
      simp only [hadd, bind, Except.bind] at h
      have hstep := addStep_of_eq fqn hadd
      obtain ⟨hchunks, hown, hnodup⟩ := ih h
      refine ⟨?_, ?_, fun hn => hnodup (hstep.nodup hn)⟩
      · rw [hchunks, hstep.chunks, List.map_cons, List.append_assoc]
        simp only [writtenChunks, List.filterMap_cons]
        cases chunkOf fqn entry.2 <;> rfl
      · rw [hown, hstep.ownItems]
        obtain ⟨own, item⟩ := entry
        cases own with
        | true =>
          rw [List.filter_cons_of_pos rfl, List.map_cons, List.append_assoc]
          simp only [writtenChunks, List.filterMap_cons, if_true]
          cases chunkOf fqn item <;> rfl
        | false => simp

/-- The one list that stands at an index. -/
theorem flatMap_zipIdx_own {β : Type*} (lists : List (List β)) (own : ℕ) :
    (lists.zipIdx.flatMap fun entry => if entry.2 = own then entry.1 else []) =
      lists.getD own [] := by
  have h : ∀ k, ((lists.zipIdx k).flatMap fun entry => if entry.2 = own then entry.1 else []) =
      if k ≤ own then lists.getD (own - k) [] else [] := by
    induction lists with
    | nil => simp
    | cons first lists ih =>
      intro k
      rw [List.zipIdx_cons, List.flatMap_cons, ih]
      rcases lt_trichotomy k own with hlt | rfl | hgt
      · have hsub : own - k = own - (k + 1) + 1 := by omega
        rw [if_neg hlt.ne, if_pos (by omega), if_pos hlt.le, hsub]
        rfl
      · simp
      · rw [if_neg hgt.ne', if_neg (by omega), if_neg (by omega)]
        rfl
  simpa using h 0

/-- What `build_global_plan` returns, in terms of the items that are kept. -/
theorem buildGlobalPlan_spec {rank : ℕ} {flags : PlannerFlags} {flattened : Bool}
    {allPlans : List SavePlan} {plan : SavePlan} {metadata : SaveMetadata} (fqn : String)
    (h : StandardSavePlanner.buildGlobalPlan rank flags flattened allPlans = .ok (plan, metadata)) :
    writtenChunks fqn plan.items = writtenChunks fqn
        ((walkedItems flags (allPlans.map SavePlan.items)).getD
          (if 1 < allPlans.length then rank else 0) []) ∧
      (writtenChunks fqn (walkedItems flags (allPlans.map SavePlan.items)).flatten ≠ [] →
        ∃ properties size, metadata.stateDictMetadata.lookup fqn = some (.tensor properties size
          (writtenChunks fqn (walkedItems flags (allPlans.map SavePlan.items)).flatten))) := by
  unfold StandardSavePlanner.buildGlobalPlan at h
  generalize (if 1 < allPlans.length then rank else 0) = ownIndex at h ⊢
  generalize walkedItems flags (allPlans.map SavePlan.items) = kept at h ⊢
  cases hown : allPlans[ownIndex]? with
  | none => simp [hown] at h
  | some ownPlan =>
    simp only [hown] at h
    cases hloop : (kept.zipIdx.flatMap fun plan => plan.1.map fun item =>
        (decide (plan.2 = ownIndex), item)).foldlM
          (fun s entry => GlobalState.add s entry.1 entry.2) (⟨[], [], []⟩ : GlobalState) with
    | error e => simp [hloop, bind, Except.bind] at h
    | ok s =>
      simp only [hloop, bind, Except.bind, pure, Except.pure, Except.ok.injEq,
        Prod.mk.injEq] at h
      obtain ⟨rfl, rfl⟩ := h
      obtain ⟨hchunks, hwrites, hnodup⟩ := foldlM_add fqn hloop
      have hall : (kept.zipIdx.flatMap fun plan => plan.1.map fun item =>
          (decide (plan.2 = ownIndex), item)).map Prod.snd = kept.flatten := by
        rw [List.map_flatMap]
        simp only [List.map_map, Function.comp_def, List.map_id']
        rw [List.flatMap_def, List.zipIdx_map_fst]
      have hmine : ((kept.zipIdx.flatMap fun plan => plan.1.map fun item =>
          (decide (plan.2 = ownIndex), item)).filter Prod.fst).map Prod.snd =
            kept.getD ownIndex [] := by
        rw [List.filter_flatMap, List.map_flatMap, ← flatMap_zipIdx_own kept ownIndex]
        refine List.flatMap_congr fun plan _ => ?_
        rw [List.filter_map, List.map_map]
        by_cases hplan : plan.2 = ownIndex <;> simp [hplan, Function.comp_def]
      rw [hall] at hchunks
      rw [hmine] at hwrites
      refine ⟨hwrites, fun hne => ?_⟩
      have hlookup : ∃ properties size, (fqn, properties, size, writtenChunks fqn kept.flatten) ∈
          s.fqnInfo := by
        rw [GlobalState.chunks] at hchunks
        cases hfqn : s.fqnInfo.lookup fqn with
        | none =>
          rw [hfqn] at hchunks
          exact absurd hchunks.symm hne
        | some entry =>
          rw [hfqn] at hchunks
          have hentry : entry.2.2 = writtenChunks fqn kept.flatten := hchunks
          exact ⟨entry.1, entry.2.1, hentry ▸ Dict.mem_of_lookup hfqn⟩
      obtain ⟨properties, size, hentry⟩ := hlookup
      refine ⟨properties, size, Dict.lookup_update ?_ ?_⟩
      · rw [List.map_map]
        exact hnodup List.nodup_nil
      · exact List.mem_map_of_mem hentry

end Loop

end HyperParallel.Checkpoint

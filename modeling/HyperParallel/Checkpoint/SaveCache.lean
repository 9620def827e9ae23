import HyperParallel.Checkpoint.SavePlan
import HyperParallel.Lib.ExceptList

/-!
# The plan cache of a save

`configure_planner`, `_build_cache_key`, `get_cached` and `cache_result` of `standard_planner.py`,
`_save_impl` with its choice between the cache and a new plan, and `finalize_checkpoint`, which
writes into the metadata that is in the cache.

* `SaveCall`: what the planners of all ranks are given in one save;
* `planned`: what `build_local_plan` and `build_global_plan` make of it;
* `CachesCorrectly`: what a sequence of saves has to do;
* `cachesCorrectly_iff`: it does so when no key comes back, and up to the storage data of the
  metadata when a key that comes back stands for the same save.
-/

namespace HyperParallel.Checkpoint

/-! ### One planner -/

/-- What `configure_planner` is given, with the planner's own options: the state dict and its
names are those after `flatten_state_dict`. -/
structure PlannerInput where
  stateDict : List (String × StateValue)
  nameMapping : Option NameMapping
  enablePlanCaching : Bool
  removeRedundancy : Bool
  saveToMinimumRank : Bool
  deriving DecidableEq, Repr

namespace PlannerInput

variable (input : PlannerInput)

/-- `_build_cache_key`. -/
def cacheKey : String :=
  "StandardSavePlanner:" ++ "||".intercalate (input.stateDict.map Prod.fst)

/-- `_enable_plan_caching` after `configure_planner`. -/
def caching (useCollectives : Bool) : Bool := useCollectives && input.enablePlanCaching

/-- The flags after `configure_planner`. -/
def flags (useCollectives : Bool) : PlannerFlags :=
  ⟨useCollectives && input.removeRedundancy, input.saveToMinimumRank⟩

/-- `build_local_plan`. -/
def localPlan (rank : ℕ) : Except SaveError SavePlan :=
  StandardSavePlanner.buildLocalPlan rank input.stateDict input.nameMapping

end PlannerInput

/-! ### One save -/

/-- One call of `save`, on all ranks: what the planner of a rank is given, and what its
`execute_write` returns. -/
structure SaveCall where
  useCollectives : Bool
  inputs : ℕ → PlannerInput
  written : ℕ → List WriteResult

/-- The final plan and the metadata of a rank. -/
abbrev SaveResult := SavePlan × SaveMetadata

/-- `cached_save_result` of the process of every rank. -/
abbrev Caches := ℕ → String → Option SaveResult

section Save

variable (worldSize : ℕ) (call : SaveCall)

/-- `all_local_plans`: those of all ranks, or without collectives that of the rank alone. -/
def gatheredPlans (rank : ℕ) : Except SaveError (List SavePlan) :=
  if call.useCollectives then
    (List.range worldSize).mapM fun r => (call.inputs r).localPlan r
  else do
    let plan ← (call.inputs rank).localPlan rank
    return [plan]

/-- The result of `build_local_plan`, the gather and `build_global_plan`. -/
def planned (rank : ℕ) : Except SaveError SaveResult := do
  let plans ← gatheredPlans worldSize call rank
  StandardSavePlanner.buildGlobalPlan rank ((call.inputs rank).flags call.useCollectives)
    (call.inputs rank).nameMapping.isSome plans

variable (caches : Caches)

/-- The cache is on, and the key of the rank. -/
def SaveCall.Uses (rank : ℕ) (key : String) : Prop :=
  (call.inputs rank).caching call.useCollectives = true ∧ (call.inputs rank).cacheKey = key

instance (rank : ℕ) (key : String) : Decidable (call.Uses rank key) :=
  inferInstanceAs (Decidable (_ ∧ _))

/-- `get_cached`. -/
def getCached (rank : ℕ) : Option SaveResult :=
  if (call.inputs rank).caching call.useCollectives then
    caches rank (call.inputs rank).cacheKey
  else none

/-- What a rank saves by: the cached result or a new one. -/
def saveResult (rank : ℕ) : Except SaveError SaveResult :=
  match getCached call caches rank with
  | some result => .ok result
  | none => planned worldSize call rank

/-- `storage_md` of `finalize_checkpoint`. -/
def storageMd (results : List (List WriteResult)) : List ((String × List ℕ) × StorageInfo) :=
  results.flatten.foldl (fun storageMd wr => Dict.set storageMd wr.index.key wr.storageData) []

/-- `finalize_checkpoint`: the metadata of a rank afterwards. -/
def SaveCall.finalizeCheckpoint (rank : ℕ) (metadata : SaveMetadata) : SaveMetadata :=
  if call.useCollectives ∧ rank ≠ 0 then metadata
  else { metadata with storageData := some (storageMd (if call.useCollectives then
    (List.range worldSize).map call.written else [call.written rank])) }

/-- `cached_save_result` after the save. `cache_result` puts the metadata of a new plan there, and
`finalize_checkpoint` changes the very object that is there, be it new or not. -/
def cachesAfter : Caches := fun rank key =>
  if call.Uses rank key then
    match saveResult worldSize call caches rank with
    | .ok result => some (result.1, call.finalizeCheckpoint worldSize rank result.2)
    | .error _ => caches rank key
  else caches rank key

end Save

/-! ### Sequences of saves -/

/-- What comes from a cache is, as `Same` says, what planning would give, and the ranks hit or miss
together.  A save in which planning raises on a rank is the last one. -/
def HitsAgree (Same : SaveResult → SaveResult → Prop) (worldSize : ℕ) :
    Caches → List SaveCall → Prop
  | _, [] => True
  | caches, call :: calls =>
      (∀ rank < worldSize, ∀ result, getCached call caches rank = some result →
        ∃ new, planned worldSize call rank = .ok new ∧ Same result new) ∧
      ((∀ rank < worldSize, getCached call caches rank ≠ none) ∨
        ∀ rank < worldSize, getCached call caches rank = none) ∧
      ((∀ rank < worldSize, ∃ result, saveResult worldSize call caches rank = .ok result) →
        HitsAgree Same worldSize (cachesAfter worldSize call caches) calls)

/-- What a sequence of saves has to do: the plan and the metadata from a cache are those that
planning would give. -/
def CachesCorrectly (worldSize : ℕ) (calls : List SaveCall) : Prop :=
  HitsAgree Eq worldSize (fun _ _ => none) calls

/-- The plan and the metadata, but for the storage data in it. -/
def SamePlan (result new : SaveResult) : Prop :=
  result.1 = new.1 ∧ result.2 = { new.2 with storageData := result.2.storageData }

/-- Two saves in which no rank uses one key with the cache on. -/
def KeysDiffer (worldSize : ℕ) (earlier later : SaveCall) : Prop :=
  ∀ rank < worldSize, ∀ key, ¬ (earlier.Uses rank key ∧ later.Uses rank key)

/-- Two saves: if a rank uses one cache key in both, all ranks are given the same in both and have
the cache on. -/
def Unambiguous (worldSize : ℕ) (earlier later : SaveCall) : Prop :=
  (∃ rank < worldSize, ∃ key, earlier.Uses rank key ∧ later.Uses rank key) →
    ∀ rank < worldSize, earlier.inputs rank = later.inputs rank ∧
      (later.inputs rank).caching later.useCollectives = true

section Proofs

variable {worldSize : ℕ} {call earlier later : SaveCall} {caches : Caches} {rank : ℕ}
  {key : String} {result new : SaveResult} {past calls : List SaveCall}

theorem getCached_eq_some_iff : getCached call caches rank = some result ↔
    (call.inputs rank).caching call.useCollectives = true ∧
      caches rank (call.inputs rank).cacheKey = some result := by
  unfold getCached
  split_ifs with h <;> simp [h]

/-- Planning depends on what the ranks are given only. -/
theorem planned_congr (hcollectives : earlier.useCollectives = later.useCollectives)
    (h : ∀ r < worldSize, earlier.inputs r = later.inputs r) (hrank : rank < worldSize) :
    planned worldSize earlier rank = planned worldSize later rank := by
  have hgathered : gatheredPlans worldSize earlier rank = gatheredPlans worldSize later rank := by
    unfold gatheredPlans
    rw [hcollectives, h rank hrank]
    congr 1
    exact ExceptList.mapM_congr fun r hr => by rw [h r (List.mem_range.1 hr)]
  unfold planned
  rw [hgathered, h rank hrank, hcollectives]

theorem planned_storageData (h : planned worldSize call rank = .ok result) :
    result.2.storageData = none := by
  unfold planned at h
  obtain ⟨plans, -, h⟩ := ExceptList.bind_eq_ok.1 h
  unfold StandardSavePlanner.buildGlobalPlan at h
  generalize (if 1 < plans.length then rank else 0) = ownIndex at h
  cases hown : plans[ownIndex]? with
  | none => simp [hown] at h
  | some ownPlan =>
    simp only [hown] at h
    obtain ⟨state, -, h⟩ := ExceptList.bind_eq_ok.1 h
    rw [← Except.ok.inj h]

theorem SamePlan.finalizeCheckpoint (h : SamePlan result new) :
    SamePlan (result.1, call.finalizeCheckpoint worldSize rank result.2) new := by
  refine ⟨h.1, ?_⟩
  unfold SaveCall.finalizeCheckpoint
  split_ifs
  · exact h.2
  all_goals
    rw [h.2]

theorem saveResult_of_miss (h : getCached call caches rank = none) :
    saveResult worldSize call caches rank = planned worldSize call rank := by
  rw [saveResult, h]

theorem cachesAfter_of_uses (huses : call.Uses rank key)
    (h : saveResult worldSize call caches rank = .ok result) :
    cachesAfter worldSize call caches rank key =
      some (result.1, call.finalizeCheckpoint worldSize rank result.2) := by
  rw [cachesAfter, if_pos huses, h]

theorem cachesAfter_of_not_uses (huses : ¬ call.Uses rank key) :
    cachesAfter worldSize call caches rank key = caches rank key := if_neg huses

/-! ### No key comes back -/

/-- The caches have an entry for every key of the past, and the coordinator's hold metadata that
`finalize_checkpoint` has been through. -/
structure Filled (worldSize : ℕ) (past : List SaveCall) (caches : Caches) : Prop where
  entry : ∀ rank < worldSize, ∀ key,
    caches rank key ≠ none ↔ ∃ earlier ∈ past, earlier.Uses rank key
  storageData : ∀ key result, caches 0 key = some result → result.2.storageData ≠ none

theorem Filled.step (hcaches : Filled worldSize past caches)
    (hok : ∀ rank < worldSize, ∃ result, saveResult worldSize call caches rank = .ok result) :
    Filled worldSize (call :: past) (cachesAfter worldSize call caches) where
  entry rank hrank key := by
    obtain ⟨result, hresult⟩ := hok rank hrank
    by_cases huses : call.Uses rank key
    · rw [cachesAfter_of_uses huses hresult]
      exact iff_of_true (Option.some_ne_none _) ⟨call, List.mem_cons_self, huses⟩
    · rw [cachesAfter_of_not_uses huses, hcaches.entry rank hrank, List.exists_mem_cons_iff]
      exact (or_iff_right huses).symm
  storageData key result h := by
    unfold cachesAfter at h
    split_ifs at h with huses
    · split at h
      · obtain rfl := Option.some.inj h
        rw [SaveCall.finalizeCheckpoint, if_neg fun hrank => hrank.2 rfl]
        exact Option.some_ne_none _
      · exact hcaches.storageData key result h
    · exact hcaches.storageData key result h

theorem Filled.miss_iff (hcaches : Filled worldSize past caches) :
    (∀ rank < worldSize, getCached call caches rank = none) ↔
      ∀ earlier ∈ past, KeysDiffer worldSize earlier call := by
  constructor
  · rintro hmiss earlier hmem rank hrank key ⟨hearlier, hlater⟩
    have hnone := hmiss rank hrank
    rw [getCached, if_pos hlater.1, hlater.2] at hnone
    exact (hcaches.entry rank hrank key).2 ⟨earlier, hmem, hearlier⟩ hnone
  · intro hdiffer rank hrank
    by_contra hhit
    obtain ⟨result, hresult⟩ := Option.ne_none_iff_exists'.1 hhit
    obtain ⟨hcaching, hentry⟩ := getCached_eq_some_iff.1 hresult
    obtain ⟨earlier, hmem, huses⟩ := (hcaches.entry rank hrank _).1
      (by rw [hentry]; exact Option.some_ne_none _)
    exact hdiffer earlier hmem rank hrank _ ⟨huses, hcaching, rfl⟩

/-- The coordinator does not hit: what it has cached holds the storage data of an earlier save. -/
theorem Filled.miss (hcaches : Filled worldSize past caches)
    (h : HitsAgree Eq worldSize caches (call :: calls)) :
    ∀ rank < worldSize, getCached call caches rank = none := by
  obtain ⟨hequal, hall | hnone, -⟩ := h
  · intro rank hrank
    have hzero := rank.zero_le.trans_lt hrank
    obtain ⟨result, hresult⟩ := Option.ne_none_iff_exists'.1 (hall 0 hzero)
    obtain ⟨new, hnew, rfl⟩ := hequal 0 hzero result hresult
    exact absurd (planned_storageData hnew)
      (hcaches.storageData _ _ (getCached_eq_some_iff.1 hresult).2)
  · exact hnone

theorem hitsAgree_iff (hcaches : Filled worldSize past caches)
    (hplans : ∀ call ∈ calls, ∀ rank < worldSize, ∃ result,
      planned worldSize call rank = .ok result) :
    HitsAgree Eq worldSize caches calls ↔
      (∀ earlier ∈ past, ∀ later ∈ calls, KeysDiffer worldSize earlier later) ∧
        calls.Pairwise (KeysDiffer worldSize) := by
  induction calls generalizing past caches with
  | nil => exact iff_of_true trivial ⟨fun _ _ _ h => absurd h List.not_mem_nil, .nil⟩
  | cons call calls ih =>
    rw [List.forall_mem_cons] at hplans
    have hnext : (∀ rank < worldSize, getCached call caches rank = none) →
        (∀ rank < worldSize, ∃ result, saveResult worldSize call caches rank = .ok result) := by
      intro hmiss rank hrank
      rw [saveResult_of_miss (hmiss rank hrank)]
      exact hplans.1 rank hrank
    rw [List.pairwise_cons]
    constructor
    · intro h
      have hmiss := hcaches.miss h
      obtain ⟨hpast, hcalls⟩ := (ih (hcaches.step (hnext hmiss)) hplans.2).1 (h.2.2 (hnext hmiss))
      rw [List.forall_mem_cons] at hpast
      refine ⟨fun earlier hmem => List.forall_mem_cons.2 ⟨?_, hpast.2 earlier hmem⟩, hpast.1, hcalls⟩
      exact hcaches.miss_iff.1 hmiss earlier hmem
    · rintro ⟨hpast, hhead, hcalls⟩
      have hmiss := hcaches.miss_iff.2 fun earlier hmem =>
        hpast earlier hmem call List.mem_cons_self
      refine ⟨fun rank hrank result hhit => ?_, .inr hmiss, fun hok => ?_⟩
      · rw [hmiss rank hrank] at hhit
        cases hhit
      · refine (ih (hcaches.step hok) hplans.2).2 ⟨List.forall_mem_cons.2 ⟨hhead, ?_⟩, hcalls⟩
        exact fun earlier hmem later hlater =>
          hpast earlier hmem later (List.mem_cons_of_mem _ hlater)

/-! ### Keys that stand for one save -/

/-- What is in the caches is from a past save that used the key, and then all ranks that used the
cache in that save have an entry. -/
def FromPast (worldSize : ℕ) (past : List SaveCall) (caches : Caches) : Prop :=
  ∀ rank < worldSize, ∀ key result, caches rank key = some result →
    ∃ earlier ∈ past, earlier.Uses rank key ∧
      (∃ new, planned worldSize earlier rank = .ok new ∧ SamePlan result new) ∧
      ∀ r < worldSize, ∀ k, earlier.Uses r k → caches r k ≠ none

/-- A save that hits on a rank is given what an earlier one was given, and hits on all ranks. -/
theorem FromPast.hit (hcaches : FromPast worldSize past caches)
    (hpast : ∀ earlier ∈ past, Unambiguous worldSize earlier call) (hrank : rank < worldSize)
    (hhit : getCached call caches rank = some result) :
    (∃ new, planned worldSize call rank = .ok new ∧ SamePlan result new) ∧
      ∀ r < worldSize, getCached call caches r ≠ none := by
  obtain ⟨hcaching, hentry⟩ := getCached_eq_some_iff.1 hhit
  obtain ⟨earlier, hmem, huses, hplanned, hall⟩ := hcaches rank hrank _ _ hentry
  have hsame := hpast earlier hmem ⟨rank, hrank, _, huses, hcaching, rfl⟩
  have hcollectives : earlier.useCollectives = call.useCollectives := by
    have hearlier := huses.1
    rw [PlannerInput.caching, Bool.and_eq_true] at hearlier hcaching
    rw [hearlier.1, hcaching.1]
  constructor
  · rw [← planned_congr hcollectives (fun r hr => (hsame r hr).1) hrank]
    exact hplanned
  · intro r hr
    obtain ⟨hinput, hon⟩ := hsame r hr
    have hentry' := hall r hr (call.inputs r).cacheKey
      ⟨by rw [hinput, hcollectives]; exact hon, by rw [hinput]⟩
    unfold getCached
    rwa [if_pos hon]

/-- One save keeps the caches in line with the past. -/
theorem FromPast.step (hcaches : FromPast worldSize past caches)
    (hok : ∀ rank < worldSize, ∃ result, saveResult worldSize call caches rank = .ok result) :
    FromPast worldSize (call :: past) (cachesAfter worldSize call caches) := by
  have hused : ∀ r < worldSize, ∀ k, call.Uses r k →
      cachesAfter worldSize call caches r k ≠ none := by
    intro r hr k huses
    obtain ⟨other, hother⟩ := hok r hr
    rw [cachesAfter_of_uses huses hother]
    exact Option.some_ne_none _
  -- an entry stays
  have hkeep : ∀ r < worldSize, ∀ k, caches r k ≠ none →
      cachesAfter worldSize call caches r k ≠ none := by
    intro r hr k hentry
    by_cases huses : call.Uses r k
    · exact hused r hr k huses
    · rwa [cachesAfter_of_not_uses huses]
  intro rank hrank key result hresult
  by_cases huses : call.Uses rank key
  · obtain ⟨saved, hsaved⟩ := hok rank hrank
    rw [cachesAfter_of_uses huses hsaved] at hresult
    obtain rfl := Option.some.inj hresult
    cases hget : getCached call caches rank with
    | none =>
      rw [saveResult_of_miss hget] at hsaved
      have hsame : SamePlan saved saved := ⟨rfl, rfl⟩
      exact ⟨call, List.mem_cons_self, huses, ⟨saved, hsaved, hsame.finalizeCheckpoint⟩, hused⟩
    | some cached =>
      obtain rfl : cached = saved := by
        rw [saveResult, hget] at hsaved
        exact Except.ok.inj hsaved
      have hentry := (getCached_eq_some_iff.1 hget).2
      rw [huses.2] at hentry
      obtain ⟨earlier, hmem, hold, ⟨new, hnew, hsame⟩, hall⟩ := hcaches rank hrank key _ hentry
      exact ⟨earlier, List.mem_cons_of_mem _ hmem, hold, ⟨new, hnew, hsame.finalizeCheckpoint⟩,
        fun r hr k hk => hkeep r hr k (hall r hr k hk)⟩
  · rw [cachesAfter_of_not_uses huses] at hresult
    obtain ⟨earlier, hmem, hold, hplanned, hall⟩ := hcaches rank hrank key result hresult
    exact ⟨earlier, List.mem_cons_of_mem _ hmem, hold, hplanned,
      fun r hr k hk => hkeep r hr k (hall r hr k hk)⟩

theorem hitsAgree_of_fromPast (past : List SaveCall) (hcaches : FromPast worldSize past caches)
    (hpast : ∀ earlier ∈ past, ∀ later ∈ calls, Unambiguous worldSize earlier later)
    (hcalls : calls.Pairwise (Unambiguous worldSize)) :
    HitsAgree SamePlan worldSize caches calls := by
  induction calls generalizing past caches with
  | nil => trivial
  | cons call calls ih =>
    rw [List.pairwise_cons] at hcalls
    have hhead : ∀ earlier ∈ past, Unambiguous worldSize earlier call := fun earlier hmem =>
      hpast earlier hmem call List.mem_cons_self
    refine ⟨fun rank hrank result hhit => (hcaches.hit hhead hrank hhit).1, ?_, fun hok => ?_⟩
    · by_cases hany : ∃ rank < worldSize, getCached call caches rank ≠ none
      · obtain ⟨rank, hrank, hhit⟩ := hany
        obtain ⟨result, hresult⟩ := Option.ne_none_iff_exists'.1 hhit
        exact Or.inl (hcaches.hit hhead hrank hresult).2
      · refine Or.inr fun rank hrank => ?_
        by_contra hhit
        exact hany ⟨rank, hrank, hhit⟩
    · refine ih (call :: past) (hcaches.step hok) ?_ hcalls.2
      exact List.forall_mem_cons.2 ⟨hcalls.1, fun earlier hmem later hlater =>
        hpast earlier hmem later (List.mem_cons_of_mem _ hlater)⟩

end Proofs

/-- Saves that can be planned use the cache correctly exactly when no rank uses a key twice.  When a
key that comes back on a rank stands for a save that gives all ranks what the earlier one gave them,
what comes from the cache differs from a new plan in the storage data only. -/
theorem cachesCorrectly_iff (worldSize : ℕ) (calls : List SaveCall)
    (hplans : ∀ call ∈ calls, ∀ rank < worldSize, ∃ result,
      planned worldSize call rank = .ok result) :
    (CachesCorrectly worldSize calls ↔ calls.Pairwise (KeysDiffer worldSize)) ∧
      (calls.Pairwise (Unambiguous worldSize) →
        HitsAgree SamePlan worldSize (fun _ _ => none) calls) := by
  constructor
  · have hstart : Filled worldSize [] fun _ _ => none :=
      ⟨fun _ _ _ => iff_of_false (fun h => h rfl) fun ⟨_, hmem, _⟩ => List.not_mem_nil hmem,
        fun _ _ h => by cases h⟩
    exact (hitsAgree_iff hstart hplans).trans
      (and_iff_right fun _ hmem => absurd hmem List.not_mem_nil)
  · exact hitsAgree_of_fromPast [] (fun _ _ _ _ hentry => by cases hentry)
      (fun _ hmem => absurd hmem List.not_mem_nil)

/-- A save of one tensor of the given size under a name. -/
def saveOne (fqn : String) (size : ℕ) : SaveCall where
  useCollectives := true
  inputs _ := ⟨[(fqn, .tensor [size] "torch.float32" none)], some [(fqn, [fqn])], true, true, false⟩
  written rank := if rank = 0 then [⟨⟨fqn, [0], some 0⟩, ⟨"_rank0_.safetensors", 0, -1, none⟩⟩] else []

/-- Two ranks save one tensor, and another one. -/
theorem cachesCorrectly_iff_two :
    (CachesCorrectly 2 [saveOne "w" 4, saveOne "v" 8] ↔
      [saveOne "w" 4, saveOne "v" 8].Pairwise (KeysDiffer 2)) ∧
    ([saveOne "w" 4, saveOne "v" 8].Pairwise (Unambiguous 2) →
      HitsAgree SamePlan 2 (fun _ _ => none) [saveOne "w" 4, saveOne "v" 8]) := by
  refine cachesCorrectly_iff 2 _ fun call hcall rank hrank => ?_
  obtain rfl | rfl : rank = 0 ∨ rank = 1 := by omega
  all_goals
    rcases List.mem_cons.1 hcall with rfl | hcall
    · exact ⟨_, rfl⟩
    · obtain rfl := List.mem_singleton.1 hcall
      exact ⟨_, rfl⟩

/-- What planning makes of the save of one tensor. -/
def resultOne (fqn : String) (size : ℕ) : SaveResult :=
  (⟨[⟨⟨fqn, [0], some 0⟩, .tensor ⟨⟨[0], [size]⟩, ⟨"torch.float32", false, none⟩, [size]⟩⟩],
      some [(fqn, [fqn])]⟩,
    ⟨[(fqn, .tensor ⟨"torch.float32", false, none⟩ [size] [⟨[0], [size]⟩])],
      some [(fqn, [fqn])], none⟩)

/-- A tensor that is saved again with another size is saved by the old plan. -/
theorem not_cachesCorrectly_resized :
    ¬ CachesCorrectly 1 [saveOne "w" 4, saveOne "w" 8] := by
  intro h
  have hplanned : ∀ size, planned 1 (saveOne "w" size) 0 = .ok (resultOne "w" size) :=
    fun _ => rfl
  have hfirst : saveResult 1 (saveOne "w" 4) (fun _ _ => none) 0 = .ok (resultOne "w" 4) :=
    hplanned 4
  have hsecond := h.2.2 fun rank hrank => by
    obtain rfl : rank = 0 := by omega
    exact ⟨_, hfirst⟩
  have hcached : getCached (saveOne "w" 8) (cachesAfter 1 (saveOne "w" 4) fun _ _ => none) 0 =
      some ((resultOne "w" 4).1, (saveOne "w" 4).finalizeCheckpoint 1 0 (resultOne "w" 4).2) :=
    getCached_eq_some_iff.2 ⟨rfl, cachesAfter_of_uses ⟨rfl, rfl⟩ hfirst⟩
  obtain ⟨new, hnew, hequal⟩ := hsecond.1 0 Nat.one_pos _ hcached
  rw [hplanned, Except.ok.injEq] at hnew
  exact absurd (congrArg Prod.fst (hequal.trans hnew.symm)) (by decide)

end HyperParallel.Checkpoint

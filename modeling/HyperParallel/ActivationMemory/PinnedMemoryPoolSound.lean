import HyperParallel.ActivationMemory.PinnedMemoryPoolRuns
import Mathlib.Tactic.Common

/-!
# Soundness of the pinned memory pool

* `reclaimed_of_reclaimBucket`: a bucket that is scanned to its end, as blocks that change places;
* `inv_reclaimCompleted`, `inv_acquire`: the scan and the first section of `acquire`;
* `sound_of_cleanRun`: every run of clean steps is sound;
* `not_sound_halfScannedBucket`: a scan that raises behind a completed event files a block twice.
-/

namespace HyperParallel.ActivationMemory.PoolState

variable {s s' : PoolState} {query : ℕ → Option Bool} {bucket still : List ℕ}
  {thread block size capacity minimumCapacity : ℕ}

theorem storageKey_of_fresh (hs : Inv s) (h : s.nextBlock ≤ block) :
    (s.blocks block).storageKey = none := by
  by_contra hkey
  obtain ⟨x, hx, rfl⟩ := List.mem_map.1 (hs.kept block hkey)
  exact absurd (hs.known x hx) (not_lt_of_ge h)

theorem inv_allocate {ok : Bool} (hs : Inv s) : Inv (s.step (.allocate thread ok)) := by
  rw [step]
  split
  case h_2 => exact hs
  case h_1 size h =>
    have hperm := acquiring_perm h
    have hsum := reserved_perm hperm s.alignLimit
    have hfrom : s.located.Perm
        (locate s.views s.available s.pending (s.acquiring.eraseIdx thread)) :=
      locate_acquiring_none hperm rfl
    cases ok with
    | false =>
      refine hs.move [] ⟨fun _ _ => rfl, fun _ _ => rfl, fun _ => rfl, rfl, rfl, rfl, rfl⟩ hfrom
        (locate_acquiring_none (.refl _) rfl) hs.availableKeys hs.pendingKeys hs.table ?_
        hs.bounded (by simp)
      show s.totalAllocated + _ = s.totalAllocated + _
      rw [hsum]
      rfl
    | true =>
      rw [if_pos rfl]
      set s' : PoolState := goOn { s with
        blocks := Function.update s.blocks s.nextBlock ⟨alignedSize s.alignLimit size, .inUse,
          none, none⟩
        nextBlock := s.nextBlock + 1 } thread [.created s.nextBlock size] with hs'
      have hto : s'.located.Perm ((s.nextBlock, .acquiring (.created s.nextBlock size)) ::
          locate s.views s.available s.pending (s.acquiring.eraseIdx thread)) :=
        locate_acquiring (.refl _) rfl
      have hold : ∀ x ∈ locate s.views s.available s.pending (s.acquiring.eraseIdx thread),
          x ∈ s.located := fun x hx => hfrom.mem_iff.2 hx
      have hne : ∀ x ∈ locate s.views s.available s.pending (s.acquiring.eraseIdx thread),
          x.1 ≠ s.nextBlock := fun x hx => (hs.known x (hold x hx)).ne
      have hblocks : ∀ b ≠ s.nextBlock, s'.blocks b = s.blocks b := fun b hb =>
        Function.update_of_ne hb _ _
      have hnew : s'.blocks s.nextBlock = ⟨alignedSize s.alignLimit size, .inUse, none, none⟩ :=
        Function.update_self _ _ _
      refine ⟨hs.availableKeys, hs.pendingKeys, ?_, fun x hx => ?_, fun b hb => ?_,
        fun x hx => ?_, fun b hb => ?_, fun key b => ?_, ?_, hs.bounded⟩
      · rw [(hto.map Prod.fst).nodup_iff, List.map_cons, List.nodup_cons]
        refine ⟨fun hmem => ?_, (hfrom.map Prod.fst).nodup_iff.1 hs.once⟩
        obtain ⟨x, hx, hxb⟩ := List.mem_map.1 hmem
        exact hne x hx hxb
      · rcases List.mem_cons.1 (hto.mem_iff.1 hx) with rfl | hx
        · exact Nat.lt_succ_self _
        · exact Nat.lt_succ_of_lt (hs.known x (hold x hx))
      · exact hs.fresh b ((Nat.le_succ _).trans hb)
      · rcases List.mem_cons.1 (hto.mem_iff.1 hx) with rfl | hx
        · refine ⟨by rw [hnew], by rw [hnew], by rw [hnew]; rfl, fun event hevent => ?_⟩
          have hevent : s.lastEvent s.nextBlock = some event := hevent
          rw [hs.fresh _ le_rfl] at hevent
          exact absurd hevent (by simp)
        · have hb := hblocks x.1 (hne x hx)
          have hok := hs.ok x (hold x hx)
          unfold Ok at *
          rw [hb]
          exact hok
      · have hb' : b ≠ s.nextBlock := by
          rintro rfl
          rw [hnew] at hb
          exact hb rfl
        rw [hblocks b hb'] at hb
        rw [(hto.map Prod.fst).mem_iff, List.map_cons]
        exact List.mem_cons_of_mem _ ((hfrom.map Prod.fst).mem_iff.1 (hs.kept b hb))
      · show s.table key = some b ↔ _
        rw [hs.table]
        by_cases hb : b = s.nextBlock
        · rw [hb, hnew, storageKey_of_fresh hs le_rfl]
        · rw [hblocks b hb]
      · have hcounted := hs.counted
        rw [(hfrom.map fun x => (s.blocks x.1).capacity).sum_eq, hsum] at hcounted
        rw [(hto.map fun x => (s'.blocks x.1).capacity).sum_eq, List.map_cons, List.sum_cons, hnew,
          List.map_congr_left fun x hx => congrArg Block.capacity (hblocks x.1 (hne x hx))]
        refine hcounted.trans ?_
        simp only [hs', goOn, List.singleton_append, List.map_cons, List.sum_cons,
          Acquiring.reserved]
        omega

/-! ### The scan -/

/-- A block whose event has completed, filed as available. -/
def reclaim (s : PoolState) (block : ℕ) : PoolState :=
  (s.setBlock block fun b => { b with event := none }).fileAvailable block

theorem blocks_reclaim : (s.reclaim block).blocks = Function.update s.blocks block
    { s.blocks block with state := .available, event := none } := by
  simp [reclaim, fileAvailable, setBlock]

theorem answer_reclaim {b : ℕ} (h : b ≠ block) :
    (s.reclaim block).answer query b = s.answer query b := by
  rw [answer, blocks_reclaim, Function.update_of_ne h, answer]

theorem reclaimBucket_cons (h : s.answer query block = some true) :
    reclaimBucket query s (block :: bucket) = reclaimBucket query (s.reclaim block) bucket := by
  rw [reclaimBucket, h]
  rfl

/-- What a bucket that is scanned to its end does. -/
theorem reclaimed_of_reclaimBucket (hnodup : bucket.Nodup)
    (havailable : (s.available.map Prod.fst).Nodup)
    (h : (reclaimBucket query s bucket).2 = some still) :
    ∃ moved A, bucket.Perm (moved ++ still) ∧ (∀ b ∈ moved, s.answer query b = some true) ∧
      (Buckets.items A).Perm
        (moved.map (fun b => ((s.blocks b).capacity, b)) ++ Buckets.items s.available) ∧
      (A.map Prod.fst).Nodup ∧
      (reclaimBucket query s bucket).1 = { s with
        available := A
        blocks := fun b => if b ∈ moved then { s.blocks b with state := .available, event := none }
          else s.blocks b } := by
  induction bucket generalizing s still with
  | nil =>
    obtain rfl := Option.some.inj h
    exact ⟨[], s.available, .refl _, by simp, .refl _, havailable, by simp [reclaimBucket]⟩
  | cons block bucket ih =>
    rw [List.nodup_cons] at hnodup
    match hanswer : s.answer query block with
    | none => simp [reclaimBucket, hanswer] at h
    | some false =>
      simp only [reclaimBucket, hanswer, Option.map_eq_some_iff] at h ⊢
      obtain ⟨still, h, rfl⟩ := h
      obtain ⟨moved, A, hperm, hmoved, hitems, hkeys, heq⟩ := ih hnodup.2 havailable h
      exact ⟨moved, A, (hperm.cons block).trans List.perm_middle.symm, hmoved, hitems, hkeys, heq⟩
    | some true =>
      rw [reclaimBucket_cons hanswer] at h ⊢
      have hkeys : ((s.reclaim block).available.map Prod.fst).Nodup :=
        Buckets.nodup_put havailable
      obtain ⟨moved, A, hperm, hmoved, hitems, hA, heq⟩ := ih hnodup.2 hkeys h
      have hne : ∀ b ∈ moved, b ≠ block := fun b hb hblock =>
        hnodup.1 (hblock ▸ hperm.mem_iff.2 (List.mem_append_left _ hb))
      refine ⟨block :: moved, A, hperm.cons block, ?_, ?_, hA, ?_⟩
      · intro b hb
        rcases List.mem_cons.1 hb with rfl | hb
        · exact hanswer
        · rw [← answer_reclaim (hne b hb)]
          exact hmoved b hb
      · refine hitems.trans ?_
        rw [List.map_cons, List.cons_append]
        have hcapacity : ∀ b, ((s.reclaim block).blocks b).capacity = (s.blocks b).capacity := by
          intro b
          rw [blocks_reclaim]
          by_cases hb : b = block
          · rw [hb, Function.update_self]
          · rw [Function.update_of_ne hb]
        simp only [hcapacity]
        have hfiled : (Buckets.items (s.reclaim block).available).Perm
            (((s.blocks block).capacity, block) :: Buckets.items s.available) := by
          have := Buckets.items_put_of_perm havailable (List.perm_append_singleton block
            (Buckets.get s.available (s.blocks block).capacity))
          simpa [reclaim, fileAvailable, setBlock] using this
        exact (hfiled.append_left _).trans List.perm_middle
      · rw [heq]
        simp only [blocks_reclaim]
        have hrest : (s.reclaim block) = { s with
            available := (s.reclaim block).available, blocks := (s.reclaim block).blocks } := rfl
        rw [hrest]
        congr 1
        funext b
        by_cases hb : b = block
        · subst hb
          have hnot : b ∉ moved := fun hb => hne b hb rfl
          simp [hnot]
        · simp [hb]

/-- The loop over a bucket raises where an event of the bucket does. -/
theorem reclaimBucket_eq_none_iff (hnodup : bucket.Nodup) :
    (reclaimBucket query s bucket).2 = none ↔ none ∈ bucket.map (s.answer query) := by
  induction bucket generalizing s with
  | nil => simp [reclaimBucket]
  | cons block bucket ih =>
    rw [List.nodup_cons] at hnodup
    match hanswer : s.answer query block with
    | none => simp [reclaimBucket, hanswer]
    | some false => simp [reclaimBucket, hanswer, ← ih hnodup.2]
    | some true =>
      rw [reclaimBucket_cons hanswer, ih hnodup.2, List.map_cons, hanswer]
      have hsame : ∀ b ∈ bucket, (s.reclaim block).answer query b = s.answer query b := by
        intro b hb
        refine answer_reclaim ?_
        rintro rfl
        exact hnodup.1 hb
      rw [List.map_congr_left hsame]
      simp

/-- A loop that raises in front of every completed event changes nothing. -/
theorem reclaimBucket_of_raises (h : (reclaimBucket query s bucket).2 = none)
    (hclean : some true ∉ (bucket.map (s.answer query)).takeWhile Option.isSome) :
    (reclaimBucket query s bucket).1 = s := by
  induction bucket with
  | nil => rfl
  | cons block bucket ih =>
    match hanswer : s.answer query block with
    | none => simp [reclaimBucket, hanswer]
    | some false =>
      simp only [reclaimBucket, hanswer, Option.map_eq_none_iff] at h ⊢
      refine ih h fun hmem => hclean ?_
      rw [List.map_cons, hanswer, List.takeWhile_cons_of_pos rfl]
      exact List.mem_cons_of_mem _ hmem
    | some true =>
      refine absurd ?_ hclean
      rw [List.map_cons, hanswer, List.takeWhile_cons_of_pos rfl]
      exact List.mem_cons_self

/-- The pending blocks of one capacity. -/
theorem located_pending (hs : Inv s) (capacity : ℕ) : s.located.Perm
    ((Buckets.get s.pending capacity).map (·, .pending capacity) ++
      locate s.views s.available (Buckets.erase s.pending capacity) s.acquiring) :=
  locate_pending (Buckets.items_perm hs.pendingKeys capacity)

theorem nodup_pending (hs : Inv s) (capacity : ℕ) : (Buckets.get s.pending capacity).Nodup := by
  have h := ((located_pending hs capacity).map Prod.fst).nodup_iff.1 hs.once
  rw [List.map_append, List.map_map] at h
  exact (List.nodup_append.1 h).1.of_map _

theorem ok_pending (hs : Inv s) (h : block ∈ Buckets.get s.pending capacity) :
    s.Ok block (.pending capacity) :=
  hs.ok _ ((located_pending hs capacity).mem_iff.2
    (List.mem_append_left _ (List.mem_map_of_mem h)))

/-- A block is pending in one bucket at most. -/
theorem capacity_unique (hs : Inv s) {capacity' : ℕ} (h : block ∈ Buckets.get s.pending capacity)
    (h' : block ∈ Buckets.get s.pending capacity') : capacity = capacity' :=
  (ok_pending hs h).1.symm.trans (ok_pending hs h').1

/-- A bucket that is scanned to its end and written back keeps the invariant, and the other
buckets answer as before. -/
theorem inv_writeBack (hs : Inv s)
    (hquery : ∀ event, query event = some true → s.completed event = true)
    (h : (reclaimBucket query s (Buckets.get s.pending capacity)).2 = some still) :
    Inv { (reclaimBucket query s (Buckets.get s.pending capacity)).1 with
      pending := Buckets.put (reclaimBucket query s (Buckets.get s.pending capacity)).1.pending
        capacity still } ∧
    ∀ c ≠ capacity, answers { (reclaimBucket query s (Buckets.get s.pending capacity)).1 with
      pending := Buckets.put (reclaimBucket query s (Buckets.get s.pending capacity)).1.pending
        capacity still } query c = s.answers query c := by
  obtain ⟨moved, A, hperm, hmoved, hitems, hA, heq⟩ :=
    reclaimed_of_reclaimBucket (nodup_pending hs capacity) hs.availableKeys h
  rw [heq]
  have hbucket : ∀ b ∈ moved, b ∈ Buckets.get s.pending capacity := fun b hb =>
    hperm.mem_iff.2 (List.mem_append_left _ hb)
  have hcapacity : ∀ b ∈ moved, (s.blocks b).capacity = capacity := fun b hb =>
    (ok_pending hs (hbucket b hb)).1
  constructor
  · refine hs.move (moved.map fun b => (b, .pending capacity, .available capacity))
      (L := locate s.views s.available (Buckets.put s.pending capacity still) s.acquiring)
      ⟨fun b hb => ?_, fun _ _ => rfl, fun b => ?_, rfl, rfl, rfl, rfl⟩ ?_ ?_ hA
      (Buckets.nodup_put hs.pendingKeys) (fun key b => ?_) rfl hs.bounded fun m hm => ?_
    · exact if_neg (by simpa using hb)
    · show (if b ∈ moved then { s.blocks b with state := .available, event := none }
        else s.blocks b).capacity = _
      split_ifs <;> rfl
    · rw [List.map_map]
      exact locate_pending (Buckets.items_perm_of_get hs.pendingKeys hperm)
    · rw [List.map_map]
      refine locate_available (hitems.trans ?_)
      rw [List.map_congr_left fun b hb => by rw [hcapacity b hb]]
    · show s.table key = some b ↔ (if b ∈ moved then
        { s.blocks b with state := .available, event := none } else s.blocks b).storageKey = _
      rw [hs.table]
      split_ifs <;> rfl
    · obtain ⟨b, hb, rfl⟩ := List.mem_map.1 hm
      obtain ⟨hcap, -, hkey, -, hevent⟩ := ok_pending hs (hbucket b hb)
      simp only [Ok, if_pos hb]
      refine ⟨hcap, trivial, hkey, fun e he => hquery e ?_⟩
      have hanswer := hmoved b hb
      rw [answer, hevent, show s.lastEvent b = some e from he] at hanswer
      exact hanswer
  · intro c hc
    rw [answers, answers, Buckets.get_put_of_ne hc]
    refine List.map_congr_left fun b hb => ?_
    have hnot : b ∉ moved := fun hmem => hc (capacity_unique hs hb (hbucket b hmem))
    simp only [answer, if_neg hnot]

theorem firstRaising_cons_of_lt {capacities : List ℕ} (h : capacity < minimumCapacity) :
    s.firstRaising query minimumCapacity (capacity :: capacities) =
      s.firstRaising query minimumCapacity capacities := by
  rw [firstRaising, List.filter_cons_of_neg (by simpa using h), firstRaising]

theorem firstRaising_cons_of_le {capacities : List ℕ} (h : minimumCapacity ≤ capacity) :
    s.firstRaising query minimumCapacity (capacity :: capacities) =
      if (s.answers query capacity).any Option.isNone then some capacity
      else s.firstRaising query minimumCapacity capacities := by
  rw [firstRaising, List.filter_cons_of_pos (by simpa using h), List.find?_cons, firstRaising]
  cases (s.answers query capacity).any Option.isNone <;> rfl

theorem firstRaising_congr {capacities : List ℕ}
    (h : ∀ c ∈ capacities, s'.answers query c = s.answers query c) :
    s'.firstRaising query minimumCapacity capacities =
      s.firstRaising query minimumCapacity capacities := by
  induction capacities with
  | nil => rfl
  | cons c capacities ih =>
    have ih := ih fun c hc => h c (List.mem_cons_of_mem _ hc)
    rcases lt_or_ge c minimumCapacity with hc | hc
    · rw [firstRaising_cons_of_lt hc, firstRaising_cons_of_lt hc, ih]
    · rw [firstRaising_cons_of_le hc, firstRaising_cons_of_le hc, ih,
        h c List.mem_cons_self]

theorem mem_of_firstRaising {capacities : List ℕ}
    (h : s.firstRaising query minimumCapacity capacities = some capacity) :
    capacity ∈ capacities :=
  List.mem_of_mem_filter (List.mem_of_find?_eq_some h)

theorem any_isNone_answers (hs : Inv s) : (s.answers query capacity).any Option.isNone = true ↔
    (reclaimBucket query s (Buckets.get s.pending capacity)).2 = none := by
  rw [reclaimBucket_eq_none_iff (nodup_pending hs capacity), answers, List.any_eq_true]
  constructor
  · rintro ⟨a, ha, hnone⟩
    rwa [← Option.isNone_iff_eq_none.1 hnone]
  · exact fun h => ⟨none, h, rfl⟩

/-- The scan of `acquire` keeps the invariant. -/
theorem inv_reclaimCompleted {capacities : List ℕ} (hs : Inv s) (hnodup : capacities.Nodup)
    (hquery : ∀ event, query event = some true → s.completed event = true)
    (hclean : ∀ c ∈ s.firstRaising query minimumCapacity capacities,
      some true ∉ (s.answers query c).takeWhile Option.isSome) :
    Inv (reclaimCompleted query minimumCapacity s capacities).1 := by
  induction capacities generalizing s with
  | nil => exact hs
  | cons capacity capacities ih =>
    rw [List.nodup_cons] at hnodup
    rw [reclaimCompleted]
    rcases lt_or_ge capacity minimumCapacity with hlt | hle
    · rw [if_pos hlt]
      rw [firstRaising_cons_of_lt hlt] at hclean
      exact ih hs hnodup.2 hquery hclean
    rw [if_neg (not_lt_of_ge hle)]
    rw [firstRaising_cons_of_le hle] at hclean
    cases hscan : (reclaimBucket query s (Buckets.get s.pending capacity)).2 with
    | none =>
      rw [if_pos ((any_isNone_answers hs).2 hscan)] at hclean
      have hsame := reclaimBucket_of_raises hscan (hclean capacity rfl)
      rw [show reclaimBucket query s (Buckets.get s.pending capacity) = (s, none) from
        Prod.ext hsame hscan]
      exact hs
    | some still =>
      rw [if_neg fun h => by
        rw [(any_isNone_answers hs).1 h] at hscan
        cases hscan] at hclean
      obtain ⟨hinv, hanswers⟩ := inv_writeBack hs hquery hscan
      rw [show reclaimBucket query s (Buckets.get s.pending capacity) =
        ((reclaimBucket query s (Buckets.get s.pending capacity)).1, some still) from
        Prod.ext rfl hscan]
      have hanswers : ∀ c ∈ capacities, _ := fun c hc =>
        hanswers c (by
          rintro rfl
          exact hnodup.1 hc)
      refine ih hinv hnodup.2 ?_ fun c hc => ?_
      · obtain ⟨moved, A, -, -, -, -, heq⟩ :=
          reclaimed_of_reclaimBucket (nodup_pending hs capacity) hs.availableKeys hscan
        rw [heq]
        exact hquery
      · rw [firstRaising_congr hanswers] at hc
        rw [hanswers c (mem_of_firstRaising hc)]
        exact hclean c hc

theorem alignLimit_reclaimBucket :
    (reclaimBucket query s bucket).1.alignLimit = s.alignLimit := by
  induction bucket generalizing s with
  | nil => rfl
  | cons block bucket ih =>
    match hanswer : s.answer query block with
    | none => simp [reclaimBucket, hanswer]
    | some false => simpa [reclaimBucket, hanswer] using ih
    | some true =>
      rw [reclaimBucket_cons hanswer, ih]
      rfl

theorem alignLimit_reclaimCompleted {capacities : List ℕ} :
    (reclaimCompleted query minimumCapacity s capacities).1.alignLimit = s.alignLimit := by
  induction capacities generalizing s with
  | nil => rfl
  | cons capacity capacities ih =>
    rw [reclaimCompleted]
    split_ifs
    · exact ih
    have hscan : (reclaimBucket query s (Buckets.get s.pending capacity)).1.alignLimit =
        s.alignLimit := alignLimit_reclaimBucket
    split
    case h_1 h => rwa [h] at hscan
    case h_2 h =>
      rw [h] at hscan
      exact ih.trans hscan

/-! ### Runs -/

theorem findAvailable_eq_some (h : s.findAvailable minimumCapacity = some (block, s'))
    (hs : Inv s) : ∃ capacity, minimumCapacity ≤ capacity ∧
      (Buckets.get s.available capacity).Perm
        ([block] ++ (Buckets.get s.available capacity).dropLast) ∧
      s' = { s.setBlock block fun b => { b with state := .inUse } with
        available := Buckets.put s.available capacity
          (Buckets.get s.available capacity).dropLast } := by
  obtain ⟨capacity, hcapacity, h⟩ := Option.bind_eq_some_iff.1 h
  obtain ⟨last, hlast, h⟩ := Option.bind_eq_some_iff.1 h
  obtain ⟨rfl, rfl⟩ := Prod.mk.inj (Option.some.inj h)
  obtain ⟨hle, hne⟩ := Buckets.firstAtLeast_eq_some hcapacity hs.availableKeys
  refine ⟨capacity, hle, ?_, rfl⟩
  rw [List.getLast?_eq_some_getLast hne] at hlast
  obtain rfl := Option.some.inj hlast
  conv_lhs => rw [← List.dropLast_append_getLast hne]
  exact List.perm_append_comm

theorem findPending_eq_some (h : s.findPending minimumCapacity = some (block, s'))
    (hs : Inv s) : ∃ capacity, minimumCapacity ≤ capacity ∧
      (Buckets.get s.pending capacity).Perm
        ([block] ++ (Buckets.get s.pending capacity).tail) ∧
      s' = { s.setBlock block fun b => { b with state := .inUse } with
        pending := Buckets.put s.pending capacity (Buckets.get s.pending capacity).tail } := by
  obtain ⟨capacity, hcapacity, h⟩ := Option.bind_eq_some_iff.1 h
  obtain ⟨first, hfirst, h⟩ := Option.bind_eq_some_iff.1 h
  obtain ⟨rfl, rfl⟩ := Prod.mk.inj (Option.some.inj h)
  obtain ⟨hle, -⟩ := Buckets.firstAtLeast_eq_some hcapacity hs.pendingKeys
  refine ⟨capacity, hle, ?_, rfl⟩
  obtain ⟨rest, hrest⟩ := List.head?_eq_some_iff.1 hfirst
  rw [hrest]
  exact .refl _

/-- The available block an acquire takes, handed out or filed back. -/
theorem inv_checkout_available {key : Option ℕ} (hs : Inv s)
    (h : s.findAvailable (alignedSize s.alignLimit size) = some (block, s')) :
    Inv (match s'.checkout block size key with
      | some s'' => s''
      | none => s'.fileAvailable block) := by
  obtain ⟨capacity, hle, hperm, rfl⟩ := findAvailable_eq_some h hs
  have hfrom := locate_available (V := s.views) (P := s.pending) (T := s.acquiring)
    (Buckets.items_perm_of_get hs.availableKeys hperm)
  have hkeys : ((Buckets.put s.available capacity
      (Buckets.get s.available capacity).dropLast).map Prod.fst).Nodup :=
    Buckets.nodup_put hs.availableKeys
  obtain ⟨hcapacity, -, hkey, hsettled⟩ := hs.ok _ (hfrom.mem_iff.2 List.mem_cons_self)
  split
  case h_1 s'' hcheckout =>
    have hacquiring := checkout_acquiring hcheckout
    change s''.acquiring = s.acquiring at hacquiring
    have := hs.check_out (T := s.acquiring) hcheckout rfl hfrom hkeys rfl
      ((le_alignedSize _ _).trans (hle.trans hcapacity.ge)) hsettled
    rwa [← hacquiring] at this
  case h_2 =>
    set t : PoolState := { s.setBlock block fun b => { b with state := .inUse } with
      available := Buckets.put s.available capacity (Buckets.get s.available capacity).dropLast }
      with ht
    have hblocks : (t.fileAvailable block).blocks = Function.update s.blocks block
        { s.blocks block with state := .available } := by
      simp [ht, fileAvailable, setBlock]
    refine hs.move_one _ (.available capacity)
      (untouched_setBlock (f := fun b => { b with state := .available }) hblocks rfl
        (fun _ _ => rfl) rfl rfl rfl rfl) hfrom ?_ (Buckets.nodup_put hkeys) hs.pendingKeys
      (table_setBlock (f := fun b => { b with state := .available }) hs hblocks rfl rfl) rfl rfl ?_
    · have hitems : (Buckets.items (t.fileAvailable block).available).Perm
          ([block].map (capacity, ·) ++ Buckets.items t.available) := by
        simp only [ht, fileAvailable, setBlock, Function.update_self, hcapacity]
        exact Buckets.items_put_of_perm hkeys (List.perm_append_singleton _ _)
      exact locate_available hitems
    · simp only [Ok, hblocks, Function.update_self]
      exact ⟨hcapacity, trivial, hkey, hsettled⟩

theorem inv_acquire {key : Option ℕ} (hs : Inv s)
    (hquery : s.Contract (.acquire size query key))
    (hclean : s.ScansWhole (.acquire size query key)) : Inv (s.step (.acquire size query key)) := by
  rw [step, acquire]
  split_ifs with hsize
  · exact hs
  have hscan := inv_reclaimCompleted hs hs.pendingKeys hquery hclean
  have halign : (reclaimCompleted query (alignedSize s.alignLimit size) s
      (s.pending.map Prod.fst)).1.alignLimit = s.alignLimit := alignLimit_reclaimCompleted
  simp only
  split
  case h_1 s' h =>
    rwa [h] at hscan
  case h_2 s' h =>
    rw [h] at hscan halign
    simp only at hscan halign
    rw [← halign]
    split
    case h_1 block s'' hfind => exact inv_checkout_available hscan hfind
    case h_2 =>
      split_ifs with hroom
      · refine hscan.move [] ⟨fun _ _ => rfl, fun _ _ => rfl, fun _ => rfl, rfl, rfl, rfl, rfl⟩
          (.refl _) (locate_acquiring_none (.refl _) rfl) hscan.availableKeys hscan.pendingKeys
          hscan.table ?_ hroom (by simp)
        simp only [List.map_cons, List.sum_cons, Acquiring.reserved]
        omega
      · split
        case h_1 => exact hscan
        case h_2 block s'' hfind =>
          obtain ⟨capacity, hle, hperm, rfl⟩ := findPending_eq_some hfind hscan
          have hfrom := locate_pending (V := s'.views) (A := s'.available) (T := s'.acquiring)
            (Buckets.items_perm_of_get hscan.pendingKeys hperm)
          obtain ⟨hcapacity, -, hkey, hevent, hlast⟩ :=
            hscan.ok _ (hfrom.mem_iff.2 List.mem_cons_self)
          refine hscan.move_one _ (.acquiring (.waiting block size (s'.blocks block).event))
            (untouched_setBlock (f := fun b => { b with state := .inUse }) rfl rfl (fun _ _ => rfl)
              rfl rfl rfl rfl) hfrom (locate_acquiring ?_ rfl) hscan.availableKeys
            (Buckets.nodup_put hscan.pendingKeys)
            (table_setBlock (f := fun b => { b with state := .inUse }) hscan rfl rfl rfl) rfl ?_ ?_
          · simp [setBlock]
          · simp [Acquiring.reserved, setBlock]
          · simp only [Ok, setBlock, Function.update_self]
            exact ⟨trivial, hkey, (le_alignedSize _ _).trans (hle.trans hcapacity.ge), hevent, hlast⟩

theorem inv_step {action : PoolAction} (hs : Inv s) (hcontract : s.Contract action)
    (hclean : s.ScansWhole action) : Inv (s.step action) := by
  cases action with
  | acquire size query key => exact inv_acquire hs hcontract hclean
  | allocate thread ok => exact inv_allocate hs
  | synchronize thread ok => exact inv_synchronize hs
  | checkout thread key => exact inv_checkout hs
  | rollBack thread => exact inv_rollBack hs
  | release view event => exact inv_release hs hcontract
  | complete event => exact inv_complete hs

theorem inv_run {actions : List PoolAction} (hs : Inv s) (h : s.CleanRun actions) :
    Inv (s.run actions) := by
  induction actions generalizing s with
  | nil => exact hs
  | cons action actions ih => exact ih (inv_step hs h.1 h.2.1) h.2.2

theorem inv_initial (maxHostBytes alignLimit : ℕ) :
    Inv { maxHostBytes := maxHostBytes, alignLimit := alignLimit } where
  availableKeys := List.nodup_nil
  pendingKeys := List.nodup_nil
  once := List.nodup_nil
  known x hx := absurd hx List.not_mem_nil
  fresh _ _ := rfl
  ok x hx := absurd hx List.not_mem_nil
  kept block h := absurd rfl h
  table key block := by simp
  counted := rfl
  bounded := Nat.zero_le _

theorem located_view (s : PoolState) {view : View} (h : view ∈ s.views) :
    (view.block, .handedOut view) ∈ s.located :=
  List.mem_append_left _ (List.mem_append_left _ (List.mem_append_left _
    (List.mem_map_of_mem (f := fun view => (view.block, Place.handedOut view)) h)))

theorem sound_of_inv (hs : Inv s) : s.Sound where
  once := hs.once
  kept := hs.kept
  unshared := by
    have h := hs.once
    rw [located, List.append_assoc, List.append_assoc, List.map_append, List.map_map] at h
    exact (List.nodup_append.1 h).1
  sized view hview := by
    obtain ⟨-, -, -, hlength, hle, -⟩ := hs.ok _ (s.located_view hview)
    exact ⟨hlength, hle⟩
  counted := hs.counted
  bounded := hs.bounded
  settled view hview := (hs.ok _ (s.located_view hview)).2.2.2.2.2

/-- Every state a clean run of the pool reaches is sound. -/
theorem sound_of_cleanRun (maxHostBytes alignLimit : ℕ) (actions : List PoolAction)
    (h : CleanRun { maxHostBytes := maxHostBytes, alignLimit := alignLimit } actions) :
    (run { maxHostBytes := maxHostBytes, alignLimit := alignLimit } actions).Sound :=
  sound_of_inv (inv_run (inv_initial _ _) h)

/-- A clean run that acquires a view, releases it behind an event and acquires it again. -/
theorem sound_of_cleanRun_reacquired :
    (run { maxHostBytes := 2048, alignLimit := 4096 }
      [.acquire 10 (fun _ => none) none, .allocate 0 true, .checkout 0 (some 7),
        .release ⟨0, 7, 10, 10⟩ (some 1), .complete 1,
        .acquire 12 (fun event => if event = 1 then some true else none) (some 7)]).Sound :=
  sound_of_cleanRun 2048 4096 _ (by
    refine ⟨fun event h => absurd h (by simp), by decide +kernel, trivial, trivial, trivial,
      trivial, Or.inl (by decide +kernel), trivial, trivial, trivial, fun event h => ?_,
      by decide +kernel, trivial⟩
    obtain rfl : event = 1 := by
      by_contra hne
      simp [hne] at h
    decide +kernel)

/-- Two blocks are released behind events, the first of which has completed while the query of
the second raises: the scan leaves the first block as available and as pending. -/
theorem not_sound_halfScannedBucket : ¬ ∀ (maxHostBytes alignLimit : ℕ)
    (actions : List PoolAction),
    ContractRun { maxHostBytes := maxHostBytes, alignLimit := alignLimit } actions →
    (run { maxHostBytes := maxHostBytes, alignLimit := alignLimit } actions).Sound := by
  intro hsound
  have h := hsound 4096 4096 [.acquire 10 (fun _ => none) none, .allocate 0 true,
    .checkout 0 (some 7), .acquire 10 (fun _ => none) none, .allocate 0 true,
    .checkout 0 (some 8), .release ⟨0, 7, 10, 10⟩ (some 1), .release ⟨1, 8, 10, 10⟩ (some 2),
    .complete 1, .acquire 10 (fun event => if event = 1 then some true else none) none] ?_
  · exact absurd h.once (by decide +kernel)
  · refine ⟨fun event h => absurd h (by simp), trivial, trivial, fun event h => absurd h (by simp),
      trivial, trivial, Or.inl (by decide +kernel), Or.inl (by decide +kernel), trivial,
      fun event h => ?_, trivial⟩
    obtain rfl : event = 1 := by
      by_contra hne
      simp [hne] at h
    decide +kernel

end HyperParallel.ActivationMemory.PoolState

import HyperParallel.Pipeline.ColumnOrder
import HyperParallel.Pipeline.InterleavedColumns

/-!
# The data dependences of the interleaved schedule

`add_send_recv` inserts a receive at the time column of its sender, so a receive comes before its
consumer only if the columns of the ranks are in step.

* `leaves_perm`, `fwd_precedes_bwd`: every rank runs each of its steps once, the forwards first;
* `fwdColumn_lt_emitColumn`, `fwdColumn_wrap`, `bwdColumn_lt`, `bwdColumn_wrap`: the columns of
  neighbouring stages;
* `Ordered`: what a schedule must satisfy; `ordered_iff` says exactly when it does;
* `error_eq_none`, `completes_iff`: an ordered schedule raises nowhere, and exactly then it runs to
  the end from every interleaving.
-/

namespace HyperParallel.Pipeline.ScheduleInterleaved1F1B

open Rendezvous

variable {c : ScheduleInterleaved1F1B} {i k j ρ l p : ℕ}

/-! ### Every step once -/

theorem flatMap_pair_perm {α : Type*} (f b : ℕ → α) (n : ℕ) :
    ((List.range n).flatMap fun j => [f j, b j]).Perm
      ((List.range n).map f ++ (List.range n).map b) := by
  classical
  rw [List.perm_iff_count]
  intro a
  induction n with
  | zero => rfl
  | succ n ih =>
    simp only [List.range_succ, List.flatMap_append, List.map_append, List.count_append,
      List.flatMap_singleton, List.map_cons, List.map_nil, List.count_cons, List.count_nil] at ih ⊢
    omega

theorem map_range_add {α : Type*} (f : ℕ → α) (m n : ℕ) :
    (List.range m).map f ++ (List.range n).map (fun j => f (m + j)) =
      (List.range (m + n)).map f := by
  rw [List.range_add, List.map_append, List.map_map]
  rfl

theorem warmupOps_add_steadyOps (c : ScheduleInterleaved1F1B) (i : ℕ) :
    c.warmupOps i + c.steadyOps i = c.nLocalStages * c.microBatchNum := by
  have := c.warmupOps_le i
  unfold steadyOps
  omega

/-- A rank runs its forwards and its backwards. -/
theorem leaves_perm (c : ScheduleInterleaved1F1B) (i : ℕ) :
    (c.constructStageExecOrder i).leaves.Perm
      ((List.range (c.nLocalStages * c.microBatchNum)).map (c.fwdStep i) ++
        (List.range (c.nLocalStages * c.microBatchNum)).map (c.bwdStep i)) := by
  have htotal := c.warmupOps_add_steadyOps i
  have hf := map_range_add (c.fwdStep i) (c.warmupOps i) (c.steadyOps i)
  have hb := map_range_add (c.bwdStep i) (c.steadyOps i) (c.warmupOps i)
  rw [htotal] at hf
  rw [Nat.add_comm, htotal] at hb
  rw [leaves_constructStageExecOrder, ← hf, ← hb, List.append_assoc, List.append_assoc]
  refine List.Perm.append_left _ ?_
  rw [← List.append_assoc]
  exact List.Perm.append_right _ (flatMap_pair_perm _ _ _)

theorem fwdStep_injOn (hc : c.Valid) (hk : k < c.nLocalStages * c.microBatchNum)
    (hj : j < c.nLocalStages * c.microBatchNum) (h : c.fwdStep i k = c.fwdStep i j) : k = j := by
  rw [fwdStep_eq hc.realStageNum_pos, fwdStep_eq hc.realStageNum_pos] at h
  simp only [LeafStep.mk.injEq, true_and, Nat.add_right_cancel_iff,
    Nat.mul_left_inj hc.realStageNum_pos.ne'] at h
  exact op_unique hc.realStageNum_pos hk hj h.2 h.1

theorem bwdStep_injOn (hc : c.Valid) (hk : k < c.nLocalStages * c.microBatchNum)
    (hj : j < c.nLocalStages * c.microBatchNum) (h : c.bwdStep i k = c.bwdStep i j) : k = j := by
  have h1 := localIndex_lt hc.realStageNum_pos hk
  have h2 := localIndex_lt hc.realStageNum_pos hj
  rw [bwdStep_eq hc.realStageNum_pos i hk, bwdStep_eq hc.realStageNum_pos i hj] at h
  simp only [LeafStep.mk.injEq, true_and, Nat.add_right_cancel_iff,
    Nat.mul_left_inj hc.realStageNum_pos.ne'] at h
  exact op_unique hc.realStageNum_pos hk hj (by omega) h.1

theorem nodup_leaves (hc : c.Valid) (i : ℕ) : (c.constructStageExecOrder i).leaves.Nodup := by
  rw [(c.leaves_perm i).nodup_iff, List.nodup_append]
  refine ⟨List.Nodup.map_on ?_ List.nodup_range, List.Nodup.map_on ?_ List.nodup_range, ?_⟩
  · exact fun k hk j hj h => fwdStep_injOn hc (List.mem_range.1 hk) (List.mem_range.1 hj) h
  · exact fun k hk j hj h => bwdStep_injOn hc (List.mem_range.1 hk) (List.mem_range.1 hj) h
  · intro x hx y hy hxy
    obtain ⟨k, -, rfl⟩ := List.mem_map.1 hx
    obtain ⟨j, -, rfl⟩ := List.mem_map.1 hy
    exact absurd (congrArg LeafStep.type hxy) (by simp [fwdStep, bwdStep])

theorem mem_leaves (i : ℕ) {x : LeafStep} : x ∈ (c.constructStageExecOrder i).leaves ↔
    (∃ k < c.nLocalStages * c.microBatchNum, c.fwdStep i k = x) ∨
      ∃ j < c.nLocalStages * c.microBatchNum, c.bwdStep i j = x := by
  rw [(c.leaves_perm i).mem_iff]
  simp

/-! ### The steps of a stage -/

/-- The forward of a stage and a micro-batch. -/
theorem fwdStep_opAt (hc : c.Valid) (i : ℕ) (hρ : ρ < c.nRounds) (hl : l < c.nLocalStages)
    (hp : p < c.roundSize ρ) : c.fwdStep i (c.opAt ρ l p) =
      ⟨c.roundStart ρ + p, .fwd, l * c.realStageNum + i⟩ := by
  rw [fwdStep_eq hc.realStageNum_pos, localIndex_opAt hρ hl hp, microIndex_opAt hρ hl hp]

/-- The backward of a stage and a micro-batch: the last local stage comes first. -/
theorem bwdStep_opAt (hc : c.Valid) (i : ℕ) (hρ : ρ < c.nRounds) (hl : l < c.nLocalStages)
    (hp : p < c.roundSize ρ) : c.bwdStep i (c.opAt ρ l p) =
      ⟨c.roundStart ρ + p, .bwd, (c.nLocalStages - 1 - l) * c.realStageNum + i⟩ := by
  rw [bwdStep_eq hc.realStageNum_pos i (opAt_lt_total hc.realStageNum_pos hρ hl hp),
    localIndex_opAt hρ hl hp, microIndex_opAt hρ hl hp]

/-! ### Forwards before their backwards -/

/-- In a duplicate-free list, the order of two elements is that of a sublist. -/
theorem precedes_of_sublist {α : Type*} {l : List α} {a b : α} (hl : l.Nodup)
    (h : [a, b].Sublist l) : Precedes l a b := by
  rintro l₁ l₂ rfl
  obtain ⟨r₁, r₂, hr, ha, hb⟩ := List.cons_sublist_iff.1 h
  rw [List.singleton_sublist] at hb
  rcases List.append_eq_append_iff.1 hr with ⟨d, h1, h2⟩ | ⟨d, h1, h2⟩
  · cases d with
    | nil => rwa [h1, List.append_nil] at ha
    | cons y d =>
      -- `b` would stand both in `r₁` and in `r₂`
      simp only [List.cons_append, List.cons.injEq] at h2
      rw [hr, List.nodup_append] at hl
      exact absurd rfl (hl.2.2 b (by rw [h1, h2.1]; simp) b hb)
  · rw [h1]
    exact List.mem_append_left _ ha

/-- A forward precedes every backward that is at most one warm-up ahead of it. -/
theorem fwd_precedes_bwd (hc : c.Valid) (hk : k < c.nLocalStages * c.microBatchNum)
    (hj : j < c.nLocalStages * c.microBatchNum) (hkj : k ≤ c.warmupOps i + j) :
    Precedes (c.constructStageExecOrder i).leaves (c.fwdStep i k) (c.bwdStep i j) := by
  refine precedes_of_sublist (nodup_leaves hc i) ?_
  have htotal := c.warmupOps_add_steadyOps i
  rw [leaves_constructStageExecOrder, List.append_assoc]
  have hbwd : c.bwdStep i j ∈ ((List.range (c.steadyOps i)).flatMap fun j =>
      [c.fwdStep i (c.warmupOps i + j), c.bwdStep i j]) ++
      (List.range (c.warmupOps i)).map fun j => c.bwdStep i (c.steadyOps i + j) := by
    rcases Nat.lt_or_ge j (c.steadyOps i) with hlt | hge
    · exact List.mem_append_left _ (List.mem_flatMap.2 ⟨j, List.mem_range.2 hlt, by simp⟩)
    · exact List.mem_append_right _ (List.mem_map.2 ⟨j - c.steadyOps i,
        List.mem_range.2 (by omega), by congr 1; omega⟩)
  rcases Nat.lt_or_ge k (c.warmupOps i) with hw | hw
  · exact List.Sublist.append (List.singleton_sublist.2
      (List.mem_map.2 ⟨k, List.mem_range.2 hw, rfl⟩)) (List.singleton_sublist.2 hbwd)
  · have hk' : c.warmupOps i + (k - c.warmupOps i) = k := by omega
    rcases Nat.lt_or_ge j (c.steadyOps i) with hlt | hge
    · refine List.Sublist.trans ?_ (List.sublist_append_right _ _)
      refine List.Sublist.trans ?_ (List.sublist_append_left _ _)
      obtain ⟨post, hpost⟩ := flatMap_range_cut
        (fun j => [c.fwdStep i (c.warmupOps i + j), c.bwdStep i j]) hlt
      rw [hpost]
      rcases Nat.lt_or_ge (k - c.warmupOps i) j with hlt' | hge'
      · refine List.Sublist.append (List.singleton_sublist.2 ?_) (List.singleton_sublist.2 ?_)
        · exact List.mem_flatMap.2 ⟨k - c.warmupOps i, List.mem_range.2 hlt', by simp [hk']⟩
        · simp
      · rw [show k = c.warmupOps i + j by omega]
        exact (List.sublist_append_left _ post).trans (List.sublist_append_right _ _)
    · refine List.Sublist.trans ?_ (List.sublist_append_right _ _)
      refine List.Sublist.append (List.singleton_sublist.2 ?_) (List.singleton_sublist.2 ?_)
      · exact List.mem_flatMap.2 ⟨k - c.warmupOps i, List.mem_range.2 (by omega), by simp [hk']⟩
      · exact List.mem_map.2 ⟨j - c.steadyOps i, List.mem_range.2 (by omega), by congr 1; omega⟩

/-! ### Columns of neighbouring stages -/

/-- From the end of the warm-up on, operations and slots differ by the bubbles of the chunks
before, and the stagger is no longer than the batch. -/
theorem slotOf_of_warmupOps_le (hc : c.Valid) (hw : c.warmupOps i ≤ k)
    (hk : k < c.nLocalStages * c.microBatchNum) :
    c.slotOf k = k + (c.nLocalStages - 1) * c.trailingBubble ∧
      c.stagger i ≤ c.microBatchNum := by
  have hweq := warmupOps_eq hc.realStageNum_pos hc.nLocalStages_pos i
  have htotal := hc.lastChunk
  rcases Nat.lt_or_ge c.microBatchNum c.realStageNum with hshort | hlong
  · rw [roundSize_short hshort] at hweq
    have hr : k - (c.nLocalStages - 1) * c.microBatchNum < c.microBatchNum := by omega
    have hslot := slotOf_lastChunk hc hr
    rw [show (c.nLocalStages - 1) * c.microBatchNum +
      (k - (c.nLocalStages - 1) * c.microBatchNum) = k by omega] at hslot
    exact ⟨hslot, by omega⟩
  · have hb := trailingBubble_long hlong
    refine ⟨by rw [slotOf_long hlong, hb, Nat.mul_zero, Nat.add_zero], ?_⟩
    rcases roundSize_zero_or hc.realStageNum_pos with h | h
    · rw [h] at hweq
      omega
    · have := c.stagger_le i
      omega

/-- The column of a forward of the steady state. -/
theorem fwdColumn_steady (hc : c.Valid) (hw : c.warmupOps i ≤ k)
    (hk : k < c.nLocalStages * c.microBatchNum) :
    c.fwdColumn i k + (c.nLocalStages - 1) * c.roundSize 0 + c.stagger i + 1 =
        c.realStageNum + (c.nLocalStages - 1) * c.trailingBubble + 2 * k ∧
      c.warmupOps i = (c.nLocalStages - 1) * c.roundSize 0 + c.stagger i := by
  have hweq := warmupOps_eq hc.realStageNum_pos hc.nLocalStages_pos i
  have hpos := hc.realStageNum_pos
  have hstag := (slotOf_of_warmupOps_le hc hw hk).2
  unfold fwdColumn warmupSlots
  rw [if_neg (by omega), Nat.mul_add]
  omega

theorem fwdColumn_warmup (hw : k < c.warmupOps i) : c.fwdColumn i k = i + c.slotOf k :=
  if_pos hw

theorem emitColumn_warmup (hw : k ≤ c.warmupOps i) : c.emitColumn i k = c.fwdColumn i k :=
  if_neg fun h => absurd h.2 (by omega)

/-- A forward is appended in its own column or one before. -/
theorem emitColumn_ge (i k : ℕ) : c.fwdColumn i k ≤ c.emitColumn i k + 1 := by
  unfold emitColumn
  split_ifs <;> omega

theorem stagger_succ (hi : i + 1 < c.realStageNum) :
    c.stagger i = c.stagger (i + 1) + if c.lessMemory then 1 else 2 := by
  unfold stagger
  split_ifs <;> omega

/-- The rank before has sent a forward when this rank runs it, unless both are in the steady
state of the schedule with shallow warm-up and pairs. -/
theorem fwdColumn_lt_emitColumn (hc : c.Valid) (hi : i + 1 < c.realStageNum)
    (hk : k < c.nLocalStages * c.microBatchNum) :
    c.fwdColumn i k < c.emitColumn (i + 1) k ↔
      ¬ (c.lessMemory ∧ c.overlapBF ∧ c.warmupOps i ≤ k) := by
  have hstag := stagger_succ hi
  have hw := warmupOps_eq hc.realStageNum_pos hc.nLocalStages_pos i
  have hw' := warmupOps_eq hc.realStageNum_pos hc.nLocalStages_pos (i + 1)
  have hone : 1 ≤ c.stagger i - c.stagger (i + 1) := by
    rw [hstag]
    split_ifs <;> omega
  rcases Nat.lt_or_ge k (c.warmupOps i) with hlt | hge
  · have hright : ¬ (c.lessMemory ∧ c.overlapBF ∧ c.warmupOps i ≤ k) := fun h => by omega
    refine iff_of_true ?_ hright
    rw [fwdColumn_warmup hlt]
    rcases Nat.lt_or_ge k (c.warmupOps (i + 1)) with hlt' | hge'
    · rw [emitColumn_warmup hlt'.le, fwdColumn_warmup hlt']
      omega
    · obtain ⟨hcol, hws⟩ := fwdColumn_steady hc hge' hk
      have hslot := (slotOf_of_warmupOps_le hc hge' hk).1
      rcases Nat.eq_or_lt_of_le hge' with heq | hgt
      · rw [emitColumn_warmup (by omega)]
        omega
      · have := c.emitColumn_ge (i + 1) k
        omega
  · have hge' : c.warmupOps (i + 1) ≤ k := by omega
    obtain ⟨hcol, hws⟩ := fwdColumn_steady hc hge hk
    obtain ⟨hcol', hws'⟩ := fwdColumn_steady hc hge' hk
    have hlt' : c.warmupOps (i + 1) < k := by omega
    unfold emitColumn
    by_cases hless : c.lessMemory = true
    · rw [if_pos hless] at hstag
      by_cases hover : c.overlapBF = true
      · rw [if_pos ⟨hover, hlt'⟩]
        exact iff_of_false (by omega) (not_not.2 ⟨hless, hover, hge⟩)
      · rw [if_neg (mt And.left hover)]
        exact iff_of_true (by omega) fun h => hover h.2.1
    · rw [if_neg hless] at hstag
      exact iff_of_true (by split_ifs <;> omega) fun h => hless h.1

/-- The previous chunk of an operation: as many operations before, as many slots before. -/
theorem opAt_succ (hρ : ρ < c.nRounds) (hp : p < c.roundSize ρ) :
    c.opAt ρ (l + 1) p = c.opAt ρ l p + c.roundSize ρ ∧
      c.slotOf (c.opAt ρ (l + 1) p) =
        c.slotOf (c.opAt ρ l p) + (c.roundSize ρ + c.trailingBubble) := by
  rw [slotOf_opAt hρ hp, slotOf_opAt hρ hp, opAt, opAt, Nat.succ_mul, Nat.succ_mul]
  omega

/-- The last rank has sent a forward when the first rank runs its next chunk. -/
theorem fwdColumn_wrap (hc : c.Valid) (hR : 2 ≤ c.realStageNum) (hρ : ρ < c.nRounds)
    (hl : l + 1 < c.nLocalStages) (hp : p < c.roundSize ρ) :
    c.fwdColumn (c.realStageNum - 1) (c.opAt ρ l p) < c.emitColumn 0 (c.opAt ρ (l + 1) p) := by
  obtain ⟨hop, hslot⟩ := opAt_succ (l := l) hρ hp
  have hk := opAt_lt_total hc.realStageNum_pos hρ hl hp
  have hlen := le_roundSize_add (c := c) (ρ := ρ)
  have hw := warmupOps_eq hc.realStageNum_pos hc.nLocalStages_pos 0
  have hwlast := warmupOps_eq hc.realStageNum_pos hc.nLocalStages_pos (c.realStageNum - 1)
  have hlast : c.stagger (c.realStageNum - 1) = 0 := (stagger_eq_zero (by omega)).2 rfl
  have hstag := c.stagger_le 0
  have hge1 := c.emitColumn_ge 0 (c.opAt ρ (l + 1) p)
  rcases Nat.lt_or_ge (c.opAt ρ l p) (c.warmupOps (c.realStageNum - 1)) with hlt | hge
  · rw [fwdColumn_warmup hlt]
    rcases Nat.lt_or_ge (c.opAt ρ (l + 1) p) (c.warmupOps 0) with hlt' | hge'
    · rw [emitColumn_warmup hlt'.le, fwdColumn_warmup hlt']
      omega
    · obtain ⟨hcol, hws⟩ := fwdColumn_steady hc hge' hk
      have hs := (slotOf_of_warmupOps_le hc hge' hk).1
      omega
  · -- the last rank is in its steady state: not in the first round
    have hρ0 : 1 ≤ ρ := by
      by_contra h0
      obtain rfl : ρ = 0 := by omega
      have h1 : (l + 1) * c.roundSize 0 ≤ (c.nLocalStages - 1) * c.roundSize 0 :=
        Nat.mul_le_mul_right _ (by omega)
      rw [opAt, roundStart_zero, Nat.zero_mul, Nat.zero_add] at hge
      rw [Nat.succ_mul] at h1
      omega
    have hlong : c.realStageNum ≤ c.microBatchNum := by
      by_contra hshort
      have := nRounds_short (show c.microBatchNum < c.realStageNum by omega)
      omega
    have hb := trailingBubble_long hlong
    have hfirst : (c.nLocalStages - 1) * c.roundSize 0 + c.roundSize 0 ≤ c.opAt ρ l p := by
      have h1 := c.roundStart_mono hρ0
      rw [roundStart_succ, roundStart_zero, Nat.zero_add] at h1
      have h2 := Nat.mul_le_mul_right c.nLocalStages h1
      have h3 : (c.nLocalStages - 1) * c.roundSize 0 + c.roundSize 0 =
          c.roundSize 0 * c.nLocalStages := by
        rw [← Nat.succ_mul, Nat.mul_comm]
        congr 1
        omega
      unfold opAt
      omega
    have hfirstLen := le_roundSize_add (c := c) (ρ := 0)
    have hge' : c.warmupOps 0 ≤ c.opAt ρ (l + 1) p := by omega
    obtain ⟨hcol, hws⟩ := fwdColumn_steady hc hge (by omega)
    obtain ⟨hcol', hws'⟩ := fwdColumn_steady hc hge' hk
    omega

/-- The rank after has sent a gradient when this rank runs its backward. -/
theorem bwdColumn_lt (hi : i + 1 < c.realStageNum) (j : ℕ) :
    c.bwdColumn (i + 1) j < c.bwdColumn i j := by
  have hstag := stagger_succ hi
  unfold bwdColumn warmupSlots
  split_ifs at hstag <;> omega

/-- The first rank has sent a gradient when the last rank runs the chunk before. -/
theorem bwdColumn_wrap (hR : 2 ≤ c.realStageNum) (hρ : ρ < c.nRounds) (hp : p < c.roundSize ρ) :
    c.bwdColumn 0 (c.opAt ρ l p) < c.bwdColumn (c.realStageNum - 1) (c.opAt ρ (l + 1) p) := by
  have hslot := (opAt_succ (l := l) hρ hp).2
  have hlen := le_roundSize_add (c := c) (ρ := ρ)
  have hlast : c.stagger (c.realStageNum - 1) = 0 := (stagger_eq_zero (by omega)).2 rfl
  have hstag := c.stagger_le 0
  unfold bwdColumn warmupSlots
  omega

/-- A stage's forward is at most one warm-up behind its backward. -/
theorem opAt_mirror_le (hc : c.Valid) (i : ℕ) :
    c.opAt ρ (c.nLocalStages - 1 - l) p ≤ c.warmupOps i + c.opAt ρ l p := by
  have hw := warmupOps_eq hc.realStageNum_pos hc.nLocalStages_pos i
  have h1 : (c.nLocalStages - 1 - l) * c.roundSize ρ ≤ (c.nLocalStages - 1) * c.roundSize ρ :=
    Nat.mul_le_mul_right _ (Nat.sub_le _ _)
  have h2 : (c.nLocalStages - 1) * c.roundSize ρ ≤ (c.nLocalStages - 1) * c.roundSize 0 :=
    Nat.mul_le_mul_left _ roundSize_le
  unfold opAt
  omega

/-! ### Receives and their consumers -/

section Received

variable {r m s k' j' : ℕ}

theorem rank_of_fwdStep (hi : i < c.realStageNum) (h : c.fwdStep i k = ⟨m, .fwd, s⟩) :
    s % c.realStageNum = i := by
  have := c.forwardStageIndex_mod hi k
  rwa [show c.forwardStageIndex k i = s from congrArg LeafStep.stageIndex h] at this

theorem rank_of_bwdStep (hi : i < c.realStageNum) (h : c.bwdStep i j = ⟨m, .bwd, s⟩) :
    s % c.realStageNum = i := by
  have := c.backwardStageIndex_mod hi j
  rwa [show c.backwardStageIndex j i = s from congrArg LeafStep.stageIndex h] at this

/-- The receive of a forward comes first exactly when the column of its sender does. -/
theorem fwdReceived_iff (hc : c.Valid) (hR : 2 ≤ c.realStageNum) (hi : i < c.realStageNum)
    (hr : r < c.realStageNum) (hk : k < c.nLocalStages * c.microBatchNum)
    (hk' : k' < c.nLocalStages * c.microBatchNum)
    (hs : s + 1 < c.nLocalStages * c.realStageNum) (hx : c.fwdStep i k = ⟨m, .fwd, s + 1⟩)
    (hy : c.fwdStep r k' = ⟨m, .fwd, s⟩) :
    ReceivedBefore (c.withTransfers ((s + 1) % c.realStageNum)) ⟨m, .fwdRecv, s + 1⟩
      ⟨m, .fwd, s + 1⟩ ↔ c.fwdColumn r k' < c.emitColumn i k := by
  obtain ⟨item, hitem, hemit⟩ := emit_emitColumn hc hi hk
  obtain ⟨item', hitem', hsub⟩ := subStep_fwdColumn hc hr hk'
  have hrank := rank_of_fwdStep hi hx
  rw [hx] at hemit
  rw [hrank]
  refine receivedBefore_iff c.computes hi (fun r _ => nodup_leaves hc r) (by simp)
    (Or.inl rfl) hitem hemit hr (y := ⟨m, .fwd, s⟩) ?_ (hrank ▸ fwdRecv_mem_comms hR hs)
    fun _ _ => eq_of_fwdRecv_mem
  rw [← hy]
  exact Option.bind_eq_some_iff.2 ⟨item', hitem', hsub⟩

/-- The receive of a backward comes first exactly when the column of its sender does. -/
theorem bwdReceived_iff (hc : c.Valid) (hR : 2 ≤ c.realStageNum) (hi : i < c.realStageNum)
    (hr : r < c.realStageNum) (hj : j < c.nLocalStages * c.microBatchNum)
    (hj' : j' < c.nLocalStages * c.microBatchNum) (hx : c.bwdStep i j = ⟨m, .bwd, s⟩)
    (hy : c.bwdStep r j' = ⟨m, .bwd, s + 1⟩) :
    ReceivedBefore (c.withTransfers (s % c.realStageNum)) ⟨m, .bwdRecv, s⟩ ⟨m, .bwd, s⟩ ↔
      c.bwdColumn r j' < c.bwdColumn i j := by
  obtain ⟨item, hitem, -, hemit⟩ := subStep_bwdColumn hc hi hj
  obtain ⟨item', hitem', hsub, -⟩ := subStep_bwdColumn hc hr hj'
  have hrank := rank_of_bwdStep hi hx
  rw [hx] at hemit
  rw [hrank]
  refine receivedBefore_iff c.computes hi (fun r _ => nodup_leaves hc r) (by simp)
    (Or.inr rfl) hitem hemit hr (y := ⟨m, .bwd, s + 1⟩) ?_ (hrank ▸ bwdRecv_mem_comms hR)
    fun _ _ => eq_of_bwdRecv_mem
  rw [← hy]
  exact Option.bind_eq_some_iff.2 ⟨item', hitem', hsub⟩

end Received

/-! ### The schedule as a whole -/

/-- What the order of every rank must satisfy: each receive comes before the step that consumes
it, every stage runs each micro-batch forward and backward exactly once and in this order, and
what one rank sends another is what the other receives. -/
structure Ordered (c : ScheduleInterleaved1F1B) : Prop where
  fwd_received : ∀ s, s + 1 < c.nLocalStages * c.realStageNum → ∀ m < c.microBatchNum,
    ReceivedBefore (c.withTransfers ((s + 1) % c.realStageNum)) ⟨m, .fwdRecv, s + 1⟩
      ⟨m, .fwd, s + 1⟩
  bwd_received : ∀ s, s + 1 < c.nLocalStages * c.realStageNum → ∀ m < c.microBatchNum,
    ReceivedBefore (c.withTransfers (s % c.realStageNum)) ⟨m, .bwdRecv, s⟩ ⟨m, .bwd, s⟩
  once : ∀ s < c.nLocalStages * c.realStageNum, ∀ m < c.microBatchNum,
    let order := (c.withTransfers (s % c.realStageNum)).leaves
    order.count ⟨m, .fwd, s⟩ = 1 ∧ order.count ⟨m, .bwd, s⟩ = 1 ∧
      Precedes order ⟨m, .fwd, s⟩ ⟨m, .bwd, s⟩
  only : ∀ rank < c.realStageNum, ∀ x ∈ (c.withTransfers rank).leaves, x.IsCompute →
    x.stageIndex < c.nLocalStages * c.realStageNum ∧ x.stageIndex % c.realStageNum = rank ∧
      x.microIndex < c.microBatchNum
  channels : ∀ (dataIterator : Bool) (p q : ℕ),
    sendsTo q (transport c.realStageNum dataIterator c.withTransfers p) =
      recvsFrom p (transport c.realStageNum dataIterator c.withTransfers q)

section Ordered

variable {s m : ℕ}

/-- The coordinates of a stage and a micro-batch. -/
theorem exists_coordinates (hc : c.Valid) (hs : s < c.nLocalStages * c.realStageNum)
    (hm : m < c.microBatchNum) : ∃ L < c.nLocalStages, ∃ i < c.realStageNum, ∃ ρ < c.nRounds,
      ∃ p < c.roundSize ρ, s = L * c.realStageNum + i ∧ m = c.roundStart ρ + p := by
  obtain ⟨ρ, hρ, p, hp, hmp⟩ := exists_round hc.realStageNum_pos hm
  exact ⟨s / c.realStageNum, Nat.div_lt_of_lt_mul (by rwa [Nat.mul_comm]), s % c.realStageNum,
    Nat.mod_lt _ hc.realStageNum_pos, ρ, hρ, p, hp, (Nat.div_add_mod' s _).symm, hmp⟩

/-- Which forward receives come in time. -/
theorem fwd_received_of (hc : c.Valid) (hR : 2 ≤ c.realStageNum)
    (hgood : ¬ (c.lessMemory ∧ c.overlapBF ∧ 2 ≤ c.microBatchNum))
    (hs : s + 1 < c.nLocalStages * c.realStageNum) (hm : m < c.microBatchNum) :
    ReceivedBefore (c.withTransfers ((s + 1) % c.realStageNum)) ⟨m, .fwdRecv, s + 1⟩
      ⟨m, .fwd, s + 1⟩ := by
  obtain ⟨L, hL, i, hi, ρ, hρ, p, hp, rfl, rfl⟩ := exists_coordinates (s := s) hc (by omega) hm
  have hy := fwdStep_opAt hc i hρ hL hp
  have hk := opAt_lt_total hc.realStageNum_pos hρ hL hp
  rcases Nat.lt_or_ge (i + 1) c.realStageNum with hi' | hi'
  · have hx := fwdStep_opAt hc (i + 1) hρ hL hp
    rw [fwdReceived_iff hc hR hi' hi hk hk hs hx hy, fwdColumn_lt_emitColumn hc hi' hk]
    rintro ⟨hless, hover, hw⟩
    -- a batch of one micro-batch never reaches the steady state
    have hM : c.microBatchNum = 1 := by
      have := hc.microBatchNum_pos
      by_contra h1
      exact hgood ⟨hless, hover, by omega⟩
    have hstag := stagger_succ hi'
    rw [if_pos hless] at hstag
    have hwi := warmupOps_eq hc.realStageNum_pos hc.nLocalStages_pos i
    have hsize := roundSize_pos (ρ := 0) hc.realStageNum_pos hc.microBatchNum_pos
    have hsize' := roundSize_zero_le hc.realStageNum_pos
    have hV := hc.nLocalStages_pos
    have hone : c.roundSize 0 = 1 := by omega
    rw [hone, hM] at hwi
    rw [hM] at hk
    omega
  · obtain rfl : i = c.realStageNum - 1 := by omega
    have hL' : L + 1 < c.nLocalStages := by
      by_contra h
      have : c.nLocalStages * c.realStageNum ≤ (L + 1) * c.realStageNum :=
        Nat.mul_le_mul_right _ (by omega)
      rw [Nat.succ_mul] at this
      omega
    have hk' := opAt_lt_total hc.realStageNum_pos hρ hL' hp
    have hx := fwdStep_opAt hc 0 hρ hL' hp
    have hstage : (L + 1) * c.realStageNum + 0 =
        L * c.realStageNum + (c.realStageNum - 1) + 1 := by rw [Nat.succ_mul]; omega
    rw [hstage] at hx
    rw [fwdReceived_iff hc hR hc.realStageNum_pos hi hk' hk hs hx hy]
    exact fwdColumn_wrap hc hR hρ hL' hp

theorem bwd_received_of (hc : c.Valid) (hR : 2 ≤ c.realStageNum)
    (hs : s + 1 < c.nLocalStages * c.realStageNum) (hm : m < c.microBatchNum) :
    ReceivedBefore (c.withTransfers (s % c.realStageNum)) ⟨m, .bwdRecv, s⟩ ⟨m, .bwd, s⟩ := by
  obtain ⟨L, hL, i, hi, ρ, hρ, p, hp, rfl, rfl⟩ := exists_coordinates (s := s) hc (by omega) hm
  have hl : c.nLocalStages - 1 - L < c.nLocalStages := by omega
  have hL' : c.nLocalStages - 1 - (c.nLocalStages - 1 - L) = L := by omega
  have hx := bwdStep_opAt hc i hρ hl hp
  have hj := opAt_lt_total hc.realStageNum_pos hρ hl hp
  rw [hL'] at hx
  rcases Nat.lt_or_ge (i + 1) c.realStageNum with hi' | hi'
  · have hy := bwdStep_opAt hc (i + 1) hρ hl hp
    rw [hL'] at hy
    rw [bwdReceived_iff hc hR hi hi' hj hj hx hy]
    exact bwdColumn_lt hi' _
  · obtain rfl : i = c.realStageNum - 1 := by omega
    have hlast : L + 1 < c.nLocalStages := by
      by_contra h
      have : c.nLocalStages * c.realStageNum ≤ (L + 1) * c.realStageNum :=
        Nat.mul_le_mul_right _ (by omega)
      rw [Nat.succ_mul] at this
      omega
    have hl' : c.nLocalStages - 1 - (L + 1) < c.nLocalStages := by omega
    have hy := bwdStep_opAt hc 0 hρ hl' hp
    have hj' := opAt_lt_total hc.realStageNum_pos hρ hl' hp
    have hstage : (c.nLocalStages - 1 - (c.nLocalStages - 1 - (L + 1))) * c.realStageNum + 0 =
        L * c.realStageNum + (c.realStageNum - 1) + 1 := by
      rw [show c.nLocalStages - 1 - (c.nLocalStages - 1 - (L + 1)) = L + 1 by omega,
        Nat.succ_mul]
      omega
    rw [hstage] at hy
    rw [bwdReceived_iff hc hR hi hc.realStageNum_pos hj hj' hx hy,
      show c.nLocalStages - 1 - L = c.nLocalStages - 1 - (L + 1) + 1 by omega]
    exact bwdColumn_wrap hR hρ hp

theorem once_of (hc : c.Valid) (hs : s < c.nLocalStages * c.realStageNum)
    (hm : m < c.microBatchNum) :
    (c.withTransfers (s % c.realStageNum)).leaves.count ⟨m, .fwd, s⟩ = 1 ∧
      (c.withTransfers (s % c.realStageNum)).leaves.count ⟨m, .bwd, s⟩ = 1 ∧
      Precedes (c.withTransfers (s % c.realStageNum)).leaves ⟨m, .fwd, s⟩ ⟨m, .bwd, s⟩ := by
  obtain ⟨L, hL, i, hi, ρ, hρ, p, hp, rfl, rfl⟩ := exists_coordinates hc hs hm
  have hl : c.nLocalStages - 1 - L < c.nLocalStages := by omega
  have hL' : c.nLocalStages - 1 - (c.nLocalStages - 1 - L) = L := by omega
  have hx := fwdStep_opAt hc i hρ hL hp
  have hy := bwdStep_opAt hc i hρ hl hp
  have hk := opAt_lt_total hc.realStageNum_pos hρ hL hp
  have hj := opAt_lt_total hc.realStageNum_pos hρ hl hp
  rw [hL'] at hy
  rw [Nat.mul_add_mod_of_lt hi]
  have hfilter := filter_leaves_insertComms (N := c.nLocalStages * c.realStageNum) c.computes hi
  have hcount : ∀ x : LeafStep, x.IsCompute → x ∈ (c.constructStageExecOrder i).leaves →
      (c.withTransfers i).leaves.count x = 1 := fun x hxc hmem => by
    rw [← List.count_filter (p := (·.IsCompute)) (by simpa using hxc)]
    exact (congrArg (List.count x) hfilter).trans
      (List.count_eq_one_of_mem (nodup_leaves hc i) hmem)
  refine ⟨hcount _ (Or.inl rfl) ((mem_leaves i).2 (Or.inl ⟨_, hk, hx⟩)),
    hcount _ (Or.inr rfl) ((mem_leaves i).2 (Or.inr ⟨_, hj, hy⟩)),
    precedes_of_filter (Or.inr rfl) ?_⟩
  have hprec := fwd_precedes_bwd (i := i) hc hk hj (by
    have := opAt_mirror_le (ρ := ρ) (l := c.nLocalStages - 1 - L) (p := p) hc i
    rwa [hL'] at this)
  rw [hx, hy] at hprec
  exact hfilter.symm ▸ hprec

theorem only_of (hc : c.Valid) (hi : i < c.realStageNum) {x : LeafStep}
    (hx : x ∈ (c.withTransfers i).leaves) (hxc : x.IsCompute) :
    x.stageIndex < c.nLocalStages * c.realStageNum ∧ x.stageIndex % c.realStageNum = i ∧
      x.microIndex < c.microBatchNum := by
  have hfilter := filter_leaves_insertComms (N := c.nLocalStages * c.realStageNum) c.computes hi
  have hmem : x ∈ (c.constructStageExecOrder i).leaves :=
    hfilter ▸ List.mem_filter.2 ⟨hx, by simpa using hxc⟩
  refine ⟨?_, (c.computes i hi x hmem).2, ?_⟩
  · have hstage : ∀ l < c.nLocalStages, l * c.realStageNum + i <
        c.nLocalStages * c.realStageNum := fun l hl => by
      have := Nat.mul_le_mul_right c.realStageNum (Nat.succ_le_of_lt hl)
      rw [Nat.succ_mul] at this
      omega
    rcases (mem_leaves i).1 hmem with ⟨k, hk, rfl⟩ | ⟨j, hj, rfl⟩
    · exact hstage _ (localIndex_lt hc.realStageNum_pos hk)
    · exact hstage _ (by have := hc.nLocalStages_pos; omega)
  · rcases (mem_leaves i).1 hmem with ⟨k, hk, rfl⟩ | ⟨j, hj, rfl⟩
    · rw [fwdStep_microIndex hc]
      exact microIndex_lt hc.realStageNum_pos hk
    · rw [bwdStep_microIndex hc hj]
      exact microIndex_lt hc.realStageNum_pos hj

/-- With the shallow warm-up and pairs, the last rank runs a pair before its input arrives. -/
theorem exists_not_fwd_received (hc : c.Valid) (hR : 2 ≤ c.realStageNum)
    (hbad : c.lessMemory ∧ c.overlapBF ∧ 2 ≤ c.microBatchNum) :
    ∃ s, s + 1 < c.nLocalStages * c.realStageNum ∧ ∃ m < c.microBatchNum,
      ¬ ReceivedBefore (c.withTransfers ((s + 1) % c.realStageNum)) ⟨m, .fwdRecv, s + 1⟩
        ⟨m, .fwd, s + 1⟩ := by
  obtain ⟨hless, hover, hM⟩ := hbad
  have hi : c.realStageNum - 2 + 1 < c.realStageNum := by omega
  have hstag := stagger_succ hi
  rw [if_pos hless, (stagger_eq_zero hi).2 (by omega)] at hstag
  have hw := warmupOps_eq hc.realStageNum_pos hc.nLocalStages_pos (c.realStageNum - 2)
  have hle := Nat.mul_le_mul_left (c.nLocalStages - 1) (roundSize_zero_le hc.realStageNum_pos)
  have htotal := hc.lastChunk
  have hk : c.warmupOps (c.realStageNum - 2) < c.nLocalStages * c.microBatchNum := by omega
  obtain ⟨ρ, hρ, l, hl, p, hp, hkp⟩ := exists_opAt hc.realStageNum_pos hk
  have hy := fwdStep_opAt hc (c.realStageNum - 2) hρ hl hp
  have hx := fwdStep_opAt hc (c.realStageNum - 2 + 1) hρ hl hp
  rw [← hkp] at hx hy
  have hs : l * c.realStageNum + (c.realStageNum - 2) + 1 < c.nLocalStages * c.realStageNum := by
    have := Nat.mul_le_mul_right c.realStageNum (Nat.succ_le_of_lt hl)
    rw [Nat.succ_mul] at this
    omega
  have hm := microIndex_lt hc.realStageNum_pos hk
  rw [hkp, microIndex_opAt hρ hl hp] at hm
  refine ⟨_, hs, _, hm, ?_⟩
  rw [fwdReceived_iff hc hR hi (by omega) hk hk hs hx hy, fwdColumn_lt_emitColumn hc hi hk]
  exact not_not.2 ⟨hless, hover, le_rfl⟩

theorem ordered_of (hc : c.Valid) (hR : 2 ≤ c.realStageNum)
    (hgood : ¬ (c.lessMemory ∧ c.overlapBF ∧ 2 ≤ c.microBatchNum)) : c.Ordered :=
  ⟨fun _ hs _ hm => fwd_received_of hc hR hgood hs hm,
    fun _ hs _ hm => bwd_received_of hc hR hs hm, fun _ hs _ hm => once_of hc hs hm,
    fun _ hi _ hx hxc => only_of hc hi hx hxc, c.sendsTo_withTransfers⟩

end Ordered

/-- The interleaved schedule runs every step once, in the order of the data, and pairs every send
with its receive, unless it combines the shallow warm-up with pairs on more than one micro-batch;
then some forward stands before the receive of its input. -/
theorem ordered_iff (hR : 2 ≤ c.realStageNum) (hV : 1 ≤ c.nLocalStages)
    (hM : 1 ≤ c.microBatchNum) :
    c.Ordered ↔ ¬ (c.lessMemory ∧ c.overlapBF ∧ 2 ≤ c.microBatchNum) := by
  have hc : c.Valid := ⟨by omega, hV, hM⟩
  constructor
  · intro h hbad
    obtain ⟨s, hs, m, hm, hnot⟩ := exists_not_fwd_received hc hR hbad
    exact hnot (h.fwd_received s hs m hm)
  · exact ordered_of hc hR

theorem ordered_iff_two_one_three :
    2 ≤ 2 ∧ 1 ≤ 1 ∧ 1 ≤ 3 ∧ ((⟨2, 1, 3, false, true, false⟩ : ScheduleInterleaved1F1B).Ordered ↔
      ¬ (false = true ∧ true = true ∧ 2 ≤ 3)) :=
  ⟨by decide, by decide, by decide,
    ordered_iff (c := ⟨2, 1, 3, false, true, false⟩) (by decide) (by decide) (by decide)⟩

/-- Two ranks, two micro-batches: rank 1 runs the forward of micro-batch 1 in the pair with the
backward of micro-batch 0, and receives its input afterwards. -/
theorem not_ordered_two_one_two :
    ¬ (⟨2, 1, 2, true, true, false⟩ : ScheduleInterleaved1F1B).Ordered := by
  intro h
  have hmem := h.fwd_received 0 (by decide) 1 (by decide)
    ((withTransfers ⟨2, 1, 2, true, true, false⟩ 1).take 6)
    (.overlap .overlapBF ⟨0, .bwd, 1⟩ ⟨1, .fwd, 1⟩)
    ((withTransfers ⟨2, 1, 2, true, true, false⟩ 1).drop 7) (by decide) (by decide)
  exact absurd hmem (by decide)

/-! ### Running the schedule -/

section Execution

variable {s m : ℕ}

theorem withTransfers_whole (hi : i < c.realStageNum) : Whole (c.withTransfers i).leaves := by
  intro x hx
  rcases mem_leaves_insertComms hi hx with hx | hx | ⟨r, y, hcomm⟩
  · simp [hx]
  · rcases (c.computes i hi x hx).1 with hx | hx <;> simp [hx]
  · exact commsForStep_whole hcomm

theorem constructExecOrder_unsplit (hi : i < c.realStageNum) :
    (c.constructExecOrder i).leaves.filterMap LeafStep.unsplit = (c.withTransfers i).leaves := by
  unfold constructExecOrder
  split_ifs
  · exact unsplit_splitOverlapDxdw (withTransfers_whole hi)
  · exact filterMap_unsplit (withTransfers_whole hi)

theorem constructExecOrder_bwdInput (hi : i < c.realStageNum) (m s : ℕ) :
    Precedes (c.constructExecOrder i).leaves ⟨m, .bwdInput, s⟩ ⟨m, .bwdWeight, s⟩ ∧
      (⟨m, .bwdWeight, 0⟩ : LeafStep) ∉ (c.constructExecOrder i).leaves := by
  have hwhole := withTransfers_whole (c := c) hi
  unfold constructExecOrder
  split_ifs
  · exact bwdInput_precedes hwhole m s
  · exact ⟨precedes_of_notMem fun hmem => (hwhole _ hmem).2 rfl, fun hmem => (hwhole _ hmem).2 rfl⟩

theorem mem_withTransfers {l₁ l₂ : List LeafStep} {x y : LeafStep} (hi : i < c.realStageNum)
    (hsplit : (c.constructExecOrder i).leaves = l₁ ++ x :: l₂) (hxy : x.unsplit = some y) :
    y ∈ (c.withTransfers i).leaves := by
  rw [← constructExecOrder_unsplit hi, hsplit]
  exact List.mem_filterMap.2 ⟨x, List.mem_append_right _ List.mem_cons_self, hxy⟩

/-- What stands before a step in the order with whole backwards has been executed when a step that
stands for it comes. -/
theorem mem_of_precedes {l₁ l₂ : List LeafStep} {x y u : LeafStep} (hi : i < c.realStageNum)
    (hsplit : (c.constructExecOrder i).leaves = l₁ ++ x :: l₂) (hxy : x.unsplit = some y)
    (hu : u.type ≠ .bwd) (h : Precedes (c.withTransfers i).leaves u y) : u ∈ l₁ := by
  have hmem := h (l₁.filterMap LeafStep.unsplit) (l₂.filterMap LeafStep.unsplit) (by
    rw [← constructExecOrder_unsplit hi, hsplit, List.filterMap_append,
      List.filterMap_cons_some hxy])
  obtain ⟨z, hz, hzu⟩ := List.mem_filterMap.1 hmem
  rwa [← LeafStep.eq_of_unsplit hzu hu]

/-- In an ordered schedule a backward finds its forward and its gradient. -/
theorem backwardError_eq_none (h : c.Ordered) {l₁ l₂ : List LeafStep} {x : LeafStep}
    (hi : i < c.realStageNum) (hsplit : (c.constructExecOrder i).leaves = l₁ ++ x :: l₂)
    (hx : x.unsplit = some ⟨m, .bwd, s⟩) (hm : x.microIndex = m) (hs : x.stageIndex = s) :
    x.backwardError (c.nLocalStages * c.realStageNum) l₁ = none := by
  obtain ⟨hstage, hrank, hmicro⟩ := h.only i hi _ (mem_withTransfers hi hsplit hx) (Or.inr rfl)
  obtain rfl : s % c.realStageNum = i := hrank
  have hfwd := mem_of_precedes hi hsplit hx (by simp) (h.once s hstage m hmicro).2.2
  unfold LeafStep.backwardError
  rw [hm, hs, if_neg (not_not.2 hfwd), if_neg]
  rintro ⟨hlast, hrecv⟩
  refine hrecv (mem_of_precedes hi hsplit hx (by simp) ?_)
  have hbefore := h.bwd_received s (by simp only at hstage; omega) m hmicro
  exact (receivedBefore_iff_precedes
    (fun step => eq_leaf_of_recv c.computes hi (by simp)) (by simp)).1 hbefore

/-- No step of an ordered schedule raises. -/
theorem error_eq_none (h : c.Ordered) {l₁ l₂ : List LeafStep} {x : LeafStep}
    (hi : i < c.realStageNum) (hsplit : (c.constructExecOrder i).leaves = l₁ ++ x :: l₂) :
    x.error (c.nLocalStages * c.realStageNum) l₁ = none := by
  obtain ⟨m, type, s⟩ := x
  cases type with
  | fwd =>
    refine if_neg ?_
    rintro ⟨hs, hrecv⟩
    obtain ⟨hstage, hrank, hmicro⟩ :=
      h.only i hi ⟨m, .fwd, s⟩ (mem_withTransfers hi hsplit rfl) (Or.inl rfl)
    obtain ⟨s, rfl⟩ := Nat.exists_eq_succ_of_ne_zero hs
    obtain rfl : (s + 1) % c.realStageNum = i := hrank
    refine hrecv (mem_of_precedes hi hsplit rfl (by simp) ?_)
    exact (receivedBefore_iff_precedes
      (fun step => eq_leaf_of_recv c.computes hi (by simp)) (by simp)).1
        (h.fwd_received s hstage m hmicro)
  | bwd => exact backwardError_eq_none h hi hsplit rfl rfl rfl
  | bwdInput =>
    have := backwardError_eq_none h hi hsplit rfl rfl rfl
    simp only [LeafStep.error, this, ite_self]
  | bwdWeight =>
    have hmem : (⟨m, .bwdWeight, s⟩ : LeafStep) ∈ (c.constructExecOrder i).leaves := by
      rw [hsplit]
      exact List.mem_append_right _ List.mem_cons_self
    obtain ⟨hprec, hzero⟩ := constructExecOrder_bwdInput (c := c) hi m s
    have hs : s ≠ 0 := by
      rintro rfl
      exact hzero hmem
    exact (if_neg hs).trans (if_neg (not_not.2 (hprec l₁ l₂ hsplit)))
  | dataLoad | dataSend | dataRecv | fwdRecv | fwdSend | bwdRecv | bwdSend => rfl

/-- A forward that stands before its receive raises. -/
theorem exists_error (hR : 2 ≤ c.realStageNum)
    (h : ¬ ReceivedBefore (c.withTransfers ((s + 1) % c.realStageNum)) ⟨m, .fwdRecv, s + 1⟩
      ⟨m, .fwd, s + 1⟩) :
    ∃ l₁ x l₂ e, (c.constructExecOrder ((s + 1) % c.realStageNum)).leaves = l₁ ++ x :: l₂ ∧
      x.error (c.nLocalStages * c.realStageNum) l₁ = some e := by
  have hi : (s + 1) % c.realStageNum < c.realStageNum := Nat.mod_lt _ (by omega)
  have hnot := mt (receivedBefore_iff_precedes
    (fun step => eq_leaf_of_recv c.computes hi (by simp)) (by simp)).2 h
  unfold Precedes at hnot
  push Not at hnot
  obtain ⟨l₁, l₂, hleaves, hnot⟩ := hnot
  replace hleaves := (constructExecOrder_unsplit hi).trans hleaves
  obtain ⟨k₁, k, hk, rfl, hrest⟩ := List.filterMap_eq_append_iff.1 hleaves
  obtain ⟨k₂, x, k₃, rfl, hnone, hx, -⟩ := List.filterMap_eq_cons_iff.1 hrest
  obtain rfl := LeafStep.eq_of_unsplit hx (by simp)
  have hrecv : (⟨m, .fwdRecv, s + 1⟩ : LeafStep) ∉ k₁ ++ k₂ := by
    rw [List.mem_append]
    rintro (hmem | hmem)
    · exact hnot (List.mem_filterMap.2 ⟨_, hmem, rfl⟩)
    · exact absurd (hnone _ hmem) (by simp [LeafStep.unsplit])
  exact ⟨k₁ ++ k₂, ⟨m, .fwd, s + 1⟩, k₃, .execOrder m, by rw [hk, List.append_assoc],
    if_pos ⟨Nat.succ_ne_zero s, hrecv⟩⟩

/-- The network completes exactly if no rank comes to a step that raises. -/
theorem completesDespite_iff_error (dataIterator : Bool) :
    CompletesDespite Raises (execution (c.nLocalStages * c.realStageNum) c.realStageNum
        dataIterator c.constructExecOrder) ↔
      ∀ i < c.realStageNum, ∀ l₁ x l₂, (c.constructExecOrder i).leaves = l₁ ++ x :: l₂ →
        x.error (c.nLocalStages * c.realStageNum) l₁ = none := by
  rw [completesDespite_iff (c.constructExecOrder_completes dataIterator)]
  constructor
  · intro h i hi l₁ x l₂ hsplit
    rw [Option.eq_none_iff_forall_ne_some]
    intro e he
    refine h i (.error e) ?_ ⟨e, rfl⟩
    unfold execution
    rw [if_pos hi]
    exact error_mem_execFrom.2 ⟨l₁, x, l₂, hsplit, he⟩
  · rintro h i _ hmem ⟨e, rfl⟩
    unfold execution at hmem
    split_ifs at hmem with hi
    · obtain ⟨l₁, x, l₂, hsplit, he⟩ := error_mem_execFrom.1 hmem
      exact absurd ((h i hi l₁ x l₂ hsplit).symm.trans he) (by simp)
    · exact List.not_mem_nil hmem

theorem not_completesDespite (hR : 2 ≤ c.realStageNum) (hV : 1 ≤ c.nLocalStages)
    (hbad : c.lessMemory ∧ c.overlapBF ∧ 2 ≤ c.microBatchNum) (dataIterator : Bool) :
    ¬ CompletesDespite Raises (execution (c.nLocalStages * c.realStageNum) c.realStageNum
      dataIterator c.constructExecOrder) := by
  rw [completesDespite_iff_error]
  intro h
  obtain ⟨s, hs, m, -, hnot⟩ := exists_not_fwd_received ⟨by omega, hV, by omega⟩ hR hbad
  obtain ⟨l₁, x, l₂, e, hsplit, he⟩ := exists_error hR hnot
  exact absurd ((h _ (Nat.mod_lt _ (by omega)) l₁ x l₂ hsplit).symm.trans he) (by simp)

end Execution

/-- With blocking sends and receives every interleaving of the ranks runs to the end, unless the
schedule combines the shallow warm-up with pairs on more than one micro-batch; then a rank raises
at a forward whose input it has not received, and its peers wait for it. -/
theorem completes_iff (hR : 2 ≤ c.realStageNum) (hV : 1 ≤ c.nLocalStages)
    (hM : 1 ≤ c.microBatchNum) (dataIterator : Bool) :
    CompletesDespite Raises (execution (c.nLocalStages * c.realStageNum) c.realStageNum
        dataIterator c.constructExecOrder) ↔
      ¬ (c.lessMemory ∧ c.overlapBF ∧ 2 ≤ c.microBatchNum) := by
  have hc : c.Valid := ⟨by omega, hV, hM⟩
  refine ⟨fun h hbad => not_completesDespite hR hV hbad dataIterator h, fun hgood => ?_⟩
  rw [completesDespite_iff_error]
  exact fun i hi l₁ x l₂ => error_eq_none (ordered_of hc hR hgood) hi

theorem completes_iff_two_one_three :
    2 ≤ 2 ∧ 1 ≤ 1 ∧ 1 ≤ 3 ∧ (CompletesDespite Raises (execution 2 2 false
        (⟨2, 1, 3, false, true, true⟩ : ScheduleInterleaved1F1B).constructExecOrder) ↔
      ¬ (false = true ∧ true = true ∧ 2 ≤ 3)) :=
  ⟨by decide, by decide, by decide,
    completes_iff (c := ⟨2, 1, 3, false, true, true⟩) (by decide) (by decide) (by decide) false⟩

/-- Two ranks, two micro-batches: rank 1 raises in the pair of the forward of micro-batch 1, and
rank 0 waits for the gradient of micro-batch 0. -/
theorem not_completes_two_one_two :
    ¬ CompletesDespite Raises (execution 2 2 false
      (⟨2, 1, 2, true, true, false⟩ : ScheduleInterleaved1F1B).constructExecOrder) :=
  not_completesDespite (c := ⟨2, 1, 2, true, true, false⟩) (by decide) (by decide) (by decide)
    false

end HyperParallel.Pipeline.ScheduleInterleaved1F1B

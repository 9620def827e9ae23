import HyperParallel.Lib.Intervals

/-!
# Transfer chunks

`core/multicore/shmem/ccsrc/data_plane/transfer_chunking.h`.

* `makeChunkPlan`, `getChunk`: a message in chunks, the last two of them balanced;
* `partitionWork`: work items dealt to the workers;
* `exactChunk`, `exactPartition`: the same expressions over the integers;
* `transferChunking_correct`: both tile what they divide, and nothing wraps around.
-/

namespace HyperParallel.Shmem

open Intervals

/-! ### Chunks and partitions -/

/-- `kMinimumRebalancedChunkCount` -/
def kMinimumRebalancedChunkCount : UInt64 := 2

structure ChunkPolicy where
  maxChunkBytes : UInt32
  minimumTailBytes : UInt32
  deriving DecidableEq, Repr

structure ChunkPlan where
  totalBytes : UInt64
  policy : ChunkPolicy
  chunkCount : UInt64
  deriving DecidableEq, Repr

structure TransferChunk where
  offsetBytes : UInt64
  sizeBytes : UInt32
  deriving DecidableEq, Repr

structure WorkPartition where
  firstItem : UInt64
  itemCount : UInt64
  deriving DecidableEq, Repr

/-- `make_chunk_plan` -/
def makeChunkPlan (totalBytes : UInt64) (policy : ChunkPolicy) : ChunkPlan :=
  let chunkCount := totalBytes / policy.maxChunkBytes.toUInt64 +
    if totalBytes % policy.maxChunkBytes.toUInt64 = 0 then 0 else 1
  ⟨totalBytes, policy, chunkCount⟩

/-- `get_chunk`; the sizes are 32-bit numbers, the rest is computed in 64 bits. -/
def getChunk (plan : ChunkPlan) (chunkIndex : UInt64) : TransferChunk :=
  let maxChunkBytes := plan.policy.maxChunkBytes.toUInt64
  let minimumTailBytes := plan.policy.minimumTailBytes.toUInt64
  let tailBytes := plan.totalBytes % maxChunkBytes
  let rebalanceTail := kMinimumRebalancedChunkCount ≤ plan.chunkCount ∧ tailBytes ≠ 0 ∧
    tailBytes < minimumTailBytes
  if rebalanceTail ∧ chunkIndex = plan.chunkCount - kMinimumRebalancedChunkCount then
    ⟨chunkIndex * maxChunkBytes, plan.policy.maxChunkBytes - plan.policy.minimumTailBytes⟩
  else if rebalanceTail ∧ chunkIndex = plan.chunkCount - 1 then
    ⟨chunkIndex * maxChunkBytes - minimumTailBytes, (tailBytes + minimumTailBytes).toUInt32⟩
  else
    let offsetBytes := chunkIndex * maxChunkBytes
    let remainingBytes := plan.totalBytes - offsetBytes
    ⟨offsetBytes, if remainingBytes < maxChunkBytes then remainingBytes.toUInt32
      else plan.policy.maxChunkBytes⟩

/-- `partition_work` -/
def partitionWork (totalItems : UInt64) (workerCount workerIndex : UInt32) : WorkPartition :=
  let baseItems := totalItems / workerCount.toUInt64
  let extraItems := totalItems % workerCount.toUInt64
  let precedingExtraItems :=
    if workerIndex.toUInt64 < extraItems then workerIndex.toUInt64 else extraItems
  ⟨workerIndex.toUInt64 * baseItems + precedingExtraItems,
    baseItems + if workerIndex.toUInt64 < extraItems then 1 else 0⟩

/-- The chunks of all indices of a plan. -/
def chunks (plan : ChunkPlan) : List TransferChunk :=
  (List.range plan.chunkCount.toNat).map fun i => getChunk plan (UInt64.ofNat i)

/-- The partitions of all workers. -/
def partitions (totalItems : UInt64) (workerCount : UInt32) : List WorkPartition :=
  (List.range workerCount.toNat).map fun w => partitionWork totalItems workerCount (UInt32.ofNat w)

/-! ### Over the integers -/

def exactChunkCount (totalBytes maxChunkBytes : ℤ) : ℤ :=
  totalBytes / maxChunkBytes + if totalBytes % maxChunkBytes = 0 then 0 else 1

/-- The offset and the size of `get_chunk`. -/
def exactChunk (totalBytes maxChunkBytes minimumTailBytes chunkIndex : ℤ) : ℤ × ℤ :=
  let chunkCount := exactChunkCount totalBytes maxChunkBytes
  let tailBytes := totalBytes % maxChunkBytes
  let rebalanceTail := 2 ≤ chunkCount ∧ tailBytes ≠ 0 ∧ tailBytes < minimumTailBytes
  if rebalanceTail ∧ chunkIndex = chunkCount - 2 then
    (chunkIndex * maxChunkBytes, maxChunkBytes - minimumTailBytes)
  else if rebalanceTail ∧ chunkIndex = chunkCount - 1 then
    (chunkIndex * maxChunkBytes - minimumTailBytes, tailBytes + minimumTailBytes)
  else
    let offsetBytes := chunkIndex * maxChunkBytes
    let remainingBytes := totalBytes - offsetBytes
    (offsetBytes, if remainingBytes < maxChunkBytes then remainingBytes else maxChunkBytes)

/-- The first item and the number of items of `partition_work`. -/
def exactPartition (totalItems workerCount workerIndex : ℤ) : ℤ × ℤ :=
  let baseItems := totalItems / workerCount
  let extraItems := totalItems % workerCount
  (workerIndex * baseItems + if workerIndex < extraItems then workerIndex else extraItems,
    baseItems + if workerIndex < extraItems then 1 else 0)

/-! ### Boundaries -/

/-- The number of chunks. -/
def countOf (T M : ℕ) : ℕ := T / M + if T % M = 0 then 0 else 1

/-- The last two chunks are balanced. -/
def Rebalanced (T M m : ℕ) : Prop := 2 ≤ countOf T M ∧ T % M ≠ 0 ∧ T % M < m

instance (T M m : ℕ) : Decidable (Rebalanced T M m) :=
  inferInstanceAs (Decidable (_ ∧ _ ∧ _))

/-- Where a chunk starts, or the last one ends. -/
def boundary (T M m i : ℕ) : ℕ :=
  if i = countOf T M then T
  else if Rebalanced T M m ∧ i + 1 = countOf T M then i * M - m
  else i * M

section Chunks

variable {T M m i : ℕ}

theorem countOf_le (hM : 0 < M) : countOf T M ≤ T := by
  have hdiv := Nat.div_add_mod T M
  unfold countOf
  split_ifs with htail
  · exact Nat.div_le_self T M
  · have hquot : T / M ≤ M * (T / M) := Nat.le_mul_of_pos_left _ hM
    omega

/-- The chunks before the last one are full. -/
theorem mul_bounds (hM : 0 < M) (hi : i < countOf T M) :
    i * M ≤ T ∧ (i + 1 < countOf T M → i * M + M ≤ T) ∧
    (i + 1 = countOf T M → T ≤ i * M + M ∧ (T % M ≠ 0 → T = i * M + T % M) ∧
      (T % M = 0 → T = i * M + M)) := by
  have hdiv := Nat.div_add_mod' T M
  have hmul : i * M ≤ T / M * M := by
    refine Nat.mul_le_mul_right M ?_
    unfold countOf at hi
    split_ifs at hi <;> omega
  have hnext : i < T / M → i * M + M ≤ T / M * M := by
    intro hlt
    rw [← Nat.succ_mul]
    exact Nat.mul_le_mul_right M hlt
  unfold countOf at hi ⊢
  split_ifs at hi ⊢ with htail
  · refine ⟨by omega, fun _ => by have := hnext (by omega); omega, fun hlast => ?_⟩
    have hquot : (i + 1) * M = T / M * M := by rw [show i + 1 = T / M by omega]
    rw [Nat.succ_mul] at hquot
    omega
  · refine ⟨by omega, fun _ => by have := hnext (by omega); omega, fun hlast => ?_⟩
    have hquot : i * M = T / M * M := by rw [show i = T / M by omega]
    have := Nat.mod_lt T hM
    omega

/-- What the expressions of `get_chunk` give without wrapping around. -/
def chunkOf (T M m i : ℕ) : ℕ × ℕ :=
  if Rebalanced T M m ∧ i = countOf T M - 2 then (i * M, M - m)
  else if Rebalanced T M m ∧ i = countOf T M - 1 then (i * M - m, T % M + m)
  else (i * M, if T - i * M < M then T - i * M else M)

/-- A chunk goes from one boundary to the next. -/
theorem chunkOf_boundary (hM : 0 < M) (hm : m ≤ M / 2) (hi : i < countOf T M) :
    (chunkOf T M m i).1 = boundary T M m i ∧
      (chunkOf T M m i).1 + (chunkOf T M m i).2 = boundary T M m (i + 1) := by
  obtain ⟨hle, hfull, hlast⟩ := mul_bounds hM hi
  have hnext : (i + 1) * M = i * M + M := Nat.succ_mul i M
  have hne : i ≠ countOf T M := hi.ne
  by_cases hbal : Rebalanced T M m
  · obtain ⟨htwo, htail, hshort⟩ := hbal
    have hbal : Rebalanced T M m := ⟨htwo, htail, hshort⟩
    simp only [chunkOf, boundary, hbal, true_and, if_neg hne, hnext]
    by_cases hpen : i = countOf T M - 2
    · have h1 : ¬ i + 1 = countOf T M := by omega
      have h2 : i + 1 + 1 = countOf T M := by omega
      simp only [if_pos hpen, if_neg h1, if_pos h2, true_and]
      omega
    · by_cases hend : i = countOf T M - 1
      · have h1 : i + 1 = countOf T M := by omega
        -- the balanced chunk begins in the one before
        have hback : m ≤ i * M := by
          have hone : 1 * M ≤ i * M := Nat.mul_le_mul_right M (by omega)
          omega
        have := (hlast h1).2.1 htail
        simp only [if_neg hpen, if_pos hend, if_pos h1, true_and]
        omega
      · have h1 : ¬ i + 1 = countOf T M := by omega
        have h2 : ¬ i + 1 + 1 = countOf T M := by omega
        have := hfull (by omega)
        simp only [if_neg hpen, if_neg hend, if_neg h1, if_neg h2, true_and]
        split_ifs <;> omega
  · simp only [chunkOf, boundary, hbal, false_and, if_false, if_neg hne, hnext, true_and]
    by_cases hend : i + 1 = countOf T M
    · have := (hlast hend).1
      rw [if_pos hend]
      split_ifs <;> omega
    · have := hfull (by omega)
      rw [if_neg hend]
      split_ifs <;> omega

theorem boundary_zero : boundary T M m 0 = 0 := by
  unfold boundary
  split_ifs with h h'
  · rcases Nat.eq_zero_or_pos (T / M) with hdiv | hdiv
    · have := Nat.div_add_mod T M
      unfold countOf at h
      split_ifs at h with htail
      · rw [hdiv, htail] at this
        omega
    · unfold countOf at h
      omega
  · omega
  · omega

theorem boundary_count : boundary T M m (countOf T M) = T := if_pos rfl

theorem chunkOf_size (hM : 0 < M) (hm : m ≤ M / 2) (hi : i < countOf T M) :
    (chunkOf T M m i).2 ≤ M ∧ (2 ≤ countOf T M → m ≤ (chunkOf T M m i).2) := by
  obtain ⟨hle, hfull, hlast⟩ := mul_bounds hM hi
  unfold chunkOf
  split_ifs with hpen hend hrest
  · exact ⟨Nat.sub_le M m, fun _ => by omega⟩
  · obtain ⟨-, -, hshort⟩ := hend.1
    exact ⟨by omega, fun _ => by omega⟩
  · refine ⟨hrest.le, fun htwo => ?_⟩
    -- only the last chunk is shorter, and its tail was long enough
    have hend' : i + 1 = countOf T M := by
      by_contra hne
      have := hfull (by omega)
      omega
    by_cases htail : T % M = 0
    · have := (hlast hend').2.2 htail
      omega
    · have hlong : ¬ T % M < m := fun hshort => hend ⟨⟨htwo, htail, hshort⟩, by omega⟩
      have := (hlast hend').2.1 htail
      omega
  · exact ⟨Nat.le_refl M, fun _ => by omega⟩

end Chunks

/-! ### Machine words -/

section Words

variable {total : UInt64} {policy : ChunkPolicy} {i : ℕ}

theorem pos_of_ne_zero {n : UInt32} (h : n ≠ 0) : 0 < n.toNat :=
  Nat.pos_of_ne_zero fun h0 => h (UInt32.toNat_inj.1 h0)

theorem le_half (hm : policy.minimumTailBytes ≤ policy.maxChunkBytes / 2) :
    policy.minimumTailBytes.toNat ≤ policy.maxChunkBytes.toNat / 2 := by
  simpa using UInt32.le_iff_toNat_le.1 hm

theorem toNat_chunkCount (hM : policy.maxChunkBytes ≠ 0) :
    (makeChunkPlan total policy).chunkCount.toNat =
      countOf total.toNat policy.maxChunkBytes.toNat := by
  have hpos := pos_of_ne_zero hM
  have hle := countOf_le (T := total.toNat) hpos
  have hlt := total.toNat_lt
  have htail : total % policy.maxChunkBytes.toUInt64 = 0 ↔
      total.toNat % policy.maxChunkBytes.toNat = 0 := by
    rw [← UInt64.toNat_inj, UInt64.toNat_mod, UInt32.toNat_toUInt64]
    rfl
  unfold countOf at hle ⊢
  simp only [makeChunkPlan, UInt64.toNat_add, UInt64.toNat_div, UInt32.toNat_toUInt64]
  split_ifs at hle ⊢ with h1 h2 h2
  · rw [Nat.mod_eq_of_lt]
    · rfl
    · exact lt_of_le_of_lt hle hlt
  · exact absurd (htail.1 h1) h2
  · exact absurd (htail.2 h2) h1
  · rw [Nat.mod_eq_of_lt]
    · rfl
    · exact lt_of_le_of_lt hle hlt

section Chunk

variable (hM : policy.maxChunkBytes ≠ 0)
  (hi : i < countOf total.toNat policy.maxChunkBytes.toNat)

include hM hi

theorem toNat_index : (UInt64.ofNat i).toNat = i := by
  have hcountLe := countOf_le (T := total.toNat) (pos_of_ne_zero hM)
  have hlt := total.toNat_lt
  rw [UInt64.toNat_ofNat', Nat.mod_eq_of_lt (by omega)]

/-- The start of a chunk. -/
theorem toNat_offset : (UInt64.ofNat i * policy.maxChunkBytes.toUInt64).toNat =
    i * policy.maxChunkBytes.toNat := by
  obtain ⟨hle, -, -⟩ := mul_bounds (pos_of_ne_zero hM) hi
  have hlt := total.toNat_lt
  rw [UInt64.toNat_mul, toNat_index hM hi, UInt32.toNat_toUInt64, Nat.mod_eq_of_lt (by omega)]

theorem toNat_rest : (total - UInt64.ofNat i * policy.maxChunkBytes.toUInt64).toNat =
    total.toNat - i * policy.maxChunkBytes.toNat := by
  obtain ⟨hle, -, -⟩ := mul_bounds (pos_of_ne_zero hM) hi
  rw [UInt64.toNat_sub_of_le, toNat_offset hM hi]
  rw [UInt64.le_iff_toNat_le, toNat_offset hM hi]
  exact hle

/-- The size of a chunk that is not rebalanced. -/
theorem toNat_size : (if total - UInt64.ofNat i * policy.maxChunkBytes.toUInt64 <
      policy.maxChunkBytes.toUInt64 then
        (total - UInt64.ofNat i * policy.maxChunkBytes.toUInt64).toUInt32
      else policy.maxChunkBytes).toNat =
      if total.toNat - i * policy.maxChunkBytes.toNat < policy.maxChunkBytes.toNat then
        total.toNat - i * policy.maxChunkBytes.toNat else policy.maxChunkBytes.toNat := by
  have hrest := toNat_rest hM hi
  have hmax := policy.maxChunkBytes.toNat_lt
  have hshort : total - UInt64.ofNat i * policy.maxChunkBytes.toUInt64 <
      policy.maxChunkBytes.toUInt64 ↔
      total.toNat - i * policy.maxChunkBytes.toNat < policy.maxChunkBytes.toNat := by
    rw [UInt64.lt_iff_toNat_lt, hrest, UInt32.toNat_toUInt64]
  by_cases h : total.toNat - i * policy.maxChunkBytes.toNat < policy.maxChunkBytes.toNat
  · rw [if_pos (hshort.2 h), if_pos h, UInt64.toNat_toUInt32, hrest, Nat.mod_eq_of_lt (by omega)]
  · rw [if_neg fun h' => h (hshort.1 h'), if_neg h]

end Chunk

theorem toNat_tail (total : UInt64) (policy : ChunkPolicy) :
    (total % policy.maxChunkBytes.toUInt64).toNat =
      total.toNat % policy.maxChunkBytes.toNat := by
  rw [UInt64.toNat_mod, UInt32.toNat_toUInt64]

theorem rebalanced_iff (total : UInt64) (hM : policy.maxChunkBytes ≠ 0) :
    (kMinimumRebalancedChunkCount ≤ (makeChunkPlan total policy).chunkCount ∧
      total % policy.maxChunkBytes.toUInt64 ≠ 0 ∧
      total % policy.maxChunkBytes.toUInt64 < policy.minimumTailBytes.toUInt64) ↔
      Rebalanced total.toNat policy.maxChunkBytes.toNat policy.minimumTailBytes.toNat := by
  have htwo : kMinimumRebalancedChunkCount.toNat = 2 := rfl
  rw [Rebalanced, UInt64.le_iff_toNat_le, UInt64.lt_iff_toNat_lt, ne_eq, ← UInt64.toNat_inj,
    toNat_tail, toNat_chunkCount hM, UInt32.toNat_toUInt64, htwo]
  rfl

/-- No expression of `get_chunk` wraps around. -/
theorem toNat_getChunk (hM : policy.maxChunkBytes ≠ 0)
    (hm : policy.minimumTailBytes ≤ policy.maxChunkBytes / 2)
    (hi : i < (makeChunkPlan total policy).chunkCount.toNat) :
    ((getChunk (makeChunkPlan total policy) (UInt64.ofNat i)).offsetBytes.toNat,
      (getChunk (makeChunkPlan total policy) (UInt64.ofNat i)).sizeBytes.toNat) =
      chunkOf total.toNat policy.maxChunkBytes.toNat policy.minimumTailBytes.toNat i := by
  have hpos := pos_of_ne_zero hM
  have hhalf := le_half hm
  have hcount : (makeChunkPlan total policy).chunkCount.toNat =
      countOf total.toNat policy.maxChunkBytes.toNat := toNat_chunkCount hM
  have hlt := total.toNat_lt
  have hmax := policy.maxChunkBytes.toNat_lt
  rw [hcount] at hi
  obtain ⟨hle, -, hlast⟩ := mul_bounds hpos hi
  have hindex := toNat_index hM hi
  have hoffset := toNat_offset hM hi
  have htail := toNat_tail total policy
  have hbal := rebalanced_iff total hM
  have hsize := toNat_size hM hi
  have hsub : ∀ word : UInt64, word.toNat ≤ countOf total.toNat policy.maxChunkBytes.toNat →
      (UInt64.ofNat i = (makeChunkPlan total policy).chunkCount - word ↔
        i = countOf total.toNat policy.maxChunkBytes.toNat - word.toNat) := by
    intro word hword
    rw [← UInt64.toNat_inj, hindex, UInt64.toNat_sub_of_le, hcount]
    rw [UInt64.le_iff_toNat_le, hcount]
    exact hword
  have hpenultimate : 2 ≤ countOf total.toNat policy.maxChunkBytes.toNat →
      (UInt64.ofNat i = (makeChunkPlan total policy).chunkCount - kMinimumRebalancedChunkCount ↔
        i = countOf total.toNat policy.maxChunkBytes.toNat - 2) :=
    hsub kMinimumRebalancedChunkCount
  have hend : 2 ≤ countOf total.toNat policy.maxChunkBytes.toNat →
      (UInt64.ofNat i = (makeChunkPlan total policy).chunkCount - 1 ↔
        i = countOf total.toNat policy.maxChunkBytes.toNat - 1) :=
    fun h => hsub 1 (Nat.le_of_succ_le h)
  have hplan : (makeChunkPlan total policy).policy = policy := rfl
  have htotal : (makeChunkPlan total policy).totalBytes = total := rfl
  unfold getChunk chunkOf
  simp only [hplan, htotal, hbal]
  by_cases h : Rebalanced total.toNat policy.maxChunkBytes.toNat policy.minimumTailBytes.toNat
  · obtain ⟨h2, -, hshort⟩ := id h
    simp only [h, true_and, hpenultimate h2, hend h2]
    by_cases hp : i = countOf total.toNat policy.maxChunkBytes.toNat - 2
    · rw [if_pos hp, if_pos hp]
      dsimp only
      rw [hoffset, UInt32.toNat_sub_of_le]
      rw [UInt32.le_iff_toNat_le]
      omega
    · rw [if_neg hp, if_neg hp]
      by_cases hl : i = countOf total.toNat policy.maxChunkBytes.toNat - 1
      · have hback : 1 * policy.maxChunkBytes.toNat ≤ i * policy.maxChunkBytes.toNat :=
          Nat.mul_le_mul_right _ (by omega)
        rw [if_pos hl, if_pos hl]
        dsimp only
        rw [UInt64.toNat_sub_of_le, hoffset, UInt64.toNat_toUInt32, UInt64.toNat_add, htail,
          UInt32.toNat_toUInt64]
        · congr 1
          omega
        · rw [UInt64.le_iff_toNat_le, hoffset, UInt32.toNat_toUInt64]
          omega
      · rw [if_neg hl, if_neg hl]
        dsimp only
        rw [hoffset, hsize]
  · simp only [h, false_and, if_false]
    rw [hoffset, hsize]

/-! The same over the integers. -/

theorem exactChunkCount_eq (T M : ℕ) : exactChunkCount T M = countOf T M := by
  unfold exactChunkCount countOf
  split_ifs with h1 h2 h2
  · simp
  · exact absurd (by exact_mod_cast h1) h2
  · exact absurd (by exact_mod_cast h2) h1
  · simp

theorem exactChunk_eq {T M m : ℕ} (hM : 0 < M) (hm : m ≤ M / 2) (hi : i < countOf T M) :
    exactChunk T M m i = (((chunkOf T M m i).1 : ℤ), ((chunkOf T M m i).2 : ℤ)) := by
  have hbal : ((2 : ℤ) ≤ countOf T M ∧ ((T % M : ℕ) : ℤ) ≠ 0 ∧ ((T % M : ℕ) : ℤ) < m) ↔
      Rebalanced T M m := by
    rw [Rebalanced]
    exact_mod_cast Iff.rfl
  obtain ⟨hle, -, -⟩ := mul_bounds hM hi
  have hmul : ((i * M : ℕ) : ℤ) = (i : ℤ) * M := Int.natCast_mul i M
  unfold exactChunk chunkOf
  simp only [exactChunkCount_eq, ← Int.natCast_emod, hbal, ← hmul]
  by_cases h : Rebalanced T M m
  · obtain ⟨h2, -, hshort⟩ := id h
    have hp : (i : ℤ) = (countOf T M : ℤ) - 2 ↔ i = countOf T M - 2 := by omega
    have hl : (i : ℤ) = (countOf T M : ℤ) - 1 ↔ i = countOf T M - 1 := by omega
    simp only [h, true_and, hp, hl]
    have hback : i = countOf T M - 1 → 1 * M ≤ i * M := fun h => Nat.mul_le_mul_right _ (by omega)
    split_ifs <;> refine Prod.ext ?_ ?_ <;> dsimp only <;> omega
  · simp only [h, false_and, if_false]
    split_ifs <;> refine Prod.ext ?_ ?_ <;> dsimp only <;> omega

/-! ### Workers -/

/-- What `partition_work` gives without wrapping around. -/
def partitionOf (items workers w : ℕ) : ℕ × ℕ :=
  (w * (items / workers) + min w (items % workers),
    items / workers + if w < items % workers then 1 else 0)

theorem partitionOf_boundary (items : ℕ) {workers w : ℕ} (hw : w < workers) :
    (partitionOf items workers w).1 + (partitionOf items workers w).2 =
        (w + 1) * (items / workers) + min (w + 1) (items % workers) ∧
      (partitionOf items workers w).1 + (partitionOf items workers w).2 ≤ items := by
  have hnext : (w + 1) * (items / workers) = w * (items / workers) + items / workers :=
    Nat.succ_mul _ _
  have hle : (w + 1) * (items / workers) ≤ workers * (items / workers) :=
    Nat.mul_le_mul_right _ hw
  have hdiv := Nat.div_add_mod items workers
  unfold partitionOf
  dsimp only
  split_ifs <;> omega

theorem toNat_partitionWork (items : UInt64) {workers : UInt32} {w : ℕ} (hw : w < workers.toNat) :
    ((partitionWork items workers (UInt32.ofNat w)).firstItem.toNat,
      (partitionWork items workers (UInt32.ofNat w)).itemCount.toNat) =
      partitionOf items.toNat workers.toNat w := by
  have hitems := items.toNat_lt
  have hworkers := workers.toNat_lt
  have hindex : (UInt32.ofNat w).toUInt64.toNat = w := by
    rw [UInt32.toNat_toUInt64, UInt32.toNat_ofNat', Nat.mod_eq_of_lt (by omega)]
  have hbase : (items / workers.toUInt64).toNat = items.toNat / workers.toNat := by
    rw [UInt64.toNat_div, UInt32.toNat_toUInt64]
  have hextra : (items % workers.toUInt64).toNat = items.toNat % workers.toNat := by
    rw [UInt64.toNat_mod, UInt32.toNat_toUInt64]
  have hlt : (UInt32.ofNat w).toUInt64 < items % workers.toUInt64 ↔
      w < items.toNat % workers.toNat := by
    rw [UInt64.lt_iff_toNat_lt, hindex, hextra]
  obtain ⟨-, hle⟩ := partitionOf_boundary items.toNat hw
  unfold partitionOf at hle ⊢
  simp only [partitionWork, hlt]
  refine Prod.ext ?_ ?_
  · dsimp only
    have hpreceding : (if w < items.toNat % workers.toNat then (UInt32.ofNat w).toUInt64
        else items % workers.toUInt64).toNat = min w (items.toNat % workers.toNat) := by
      split_ifs with h
      · rw [hindex, Nat.min_eq_left h.le]
      · rw [hextra, Nat.min_eq_right (by omega)]
    have hmul : (UInt32.ofNat w).toUInt64.toNat * (items / workers.toUInt64).toNat =
        w * (items.toNat / workers.toNat) := by rw [hindex, hbase]
    rw [UInt64.toNat_add, UInt64.toNat_mul, hpreceding, hmul, Nat.mod_eq_of_lt, Nat.mod_eq_of_lt]
    · dsimp only at hle
      omega
    · rw [Nat.mod_eq_of_lt] <;> dsimp only at hle <;> omega
  · dsimp only at hle ⊢
    split_ifs at hle ⊢
    · rw [UInt64.toNat_add, hbase, show (1 : UInt64).toNat = 1 from rfl,
        Nat.mod_eq_of_lt (by omega)]
    · rw [UInt64.toNat_add, hbase, show (0 : UInt64).toNat = 0 from rfl,
        Nat.mod_eq_of_lt (by omega)]

theorem exactPartition_eq (items workers w : ℕ) : exactPartition items workers w =
    (((partitionOf items workers w).1 : ℤ), ((partitionOf items workers w).2 : ℤ)) := by
  have hlt : (w : ℤ) < (items : ℤ) % workers ↔ w < items % workers := by
    rw [← Int.natCast_emod]
    exact Int.ofNat_lt
  unfold exactPartition partitionOf
  simp only [hlt]
  split_ifs with h
  · rw [Nat.min_eq_left h.le]
    simp
  · rw [Nat.min_eq_right (by omega)]
    simp

theorem exactPartition_eq_toNat {items : UInt64} {workers w : UInt32} (hw : w < workers) :
    (((partitionWork items workers w).firstItem.toNat : ℤ),
      ((partitionWork items workers w).itemCount.toNat : ℤ)) =
      exactPartition items.toNat workers.toNat w.toNat := by
  have h := toNat_partitionWork items (UInt32.lt_iff_toNat_lt.1 hw)
  rw [UInt32.ofNat_toNat] at h
  rw [exactPartition_eq, ← h]

/-! ### All of them -/

theorem tiles_chunks (hM : policy.maxChunkBytes ≠ 0)
    (hm : policy.minimumTailBytes ≤ policy.maxChunkBytes / 2) :
    Tiles 0 total.toNat ((chunks (makeChunkPlan total policy)).map fun c =>
      (c.offsetBytes.toNat, c.sizeBytes.toNat)) := by
  have hpos : 0 < policy.maxChunkBytes.toNat := pos_of_ne_zero hM
  have hhalf := le_half hm
  have htiles := tiles_range (n := (makeChunkPlan total policy).chunkCount.toNat)
    (b := boundary total.toNat policy.maxChunkBytes.toNat policy.minimumTailBytes.toNat)
    (f := fun i => ((getChunk (makeChunkPlan total policy) (UInt64.ofNat i)).offsetBytes.toNat,
      (getChunk (makeChunkPlan total policy) (UInt64.ofNat i)).sizeBytes.toNat)) fun i hi => by
    rw [toNat_getChunk hM hm hi]
    rw [toNat_chunkCount hM] at hi
    exact chunkOf_boundary hpos hhalf hi
  rw [toNat_chunkCount hM, boundary_zero, boundary_count] at htiles
  rw [chunks, List.map_map, toNat_chunkCount hM]
  exact htiles

theorem size_of_mem_chunks (hM : policy.maxChunkBytes ≠ 0)
    (hm : policy.minimumTailBytes ≤ policy.maxChunkBytes / 2) {c : TransferChunk}
    (hc : c ∈ chunks (makeChunkPlan total policy)) : c.sizeBytes ≤ policy.maxChunkBytes ∧
      (2 ≤ (chunks (makeChunkPlan total policy)).length →
        min policy.minimumTailBytes.toNat policy.maxChunkBytes.toNat ≤ c.sizeBytes.toNat) := by
  obtain ⟨i, hi, rfl⟩ := List.mem_map.1 hc
  have hi := List.mem_range.1 hi
  have hchunk := toNat_getChunk hM hm hi
  rw [toNat_chunkCount hM] at hi
  obtain ⟨hle, hge⟩ := chunkOf_size (pos_of_ne_zero hM) (le_half hm) hi
  have hsize : (getChunk (makeChunkPlan total policy) (UInt64.ofNat i)).sizeBytes.toNat =
      (chunkOf total.toNat policy.maxChunkBytes.toNat policy.minimumTailBytes.toNat i).2 :=
    congrArg Prod.snd hchunk
  constructor
  · rw [UInt32.le_iff_toNat_le, hsize]
    exact hle
  · intro htwo
    rw [chunks, List.length_map, List.length_range, toNat_chunkCount hM] at htwo
    rw [hsize]
    exact (Nat.min_le_left _ _).trans (hge htwo)

theorem tiles_partitions {items : UInt64} {workers : UInt32} (hworkers : workers ≠ 0) :
    Tiles 0 items.toNat ((partitions items workers).map fun p =>
      (p.firstItem.toNat, p.itemCount.toNat)) := by
  have htiles := tiles_range (n := workers.toNat)
    (b := fun w => w * (items.toNat / workers.toNat) + min w (items.toNat % workers.toNat))
    (f := fun w => ((partitionWork items workers (UInt32.ofNat w)).firstItem.toNat,
      (partitionWork items workers (UInt32.ofNat w)).itemCount.toNat)) fun w hw => by
    rw [toNat_partitionWork items hw]
    exact ⟨rfl, (partitionOf_boundary _ hw).1⟩
  have hextra : min workers.toNat (items.toNat % workers.toNat) = items.toNat % workers.toNat :=
    Nat.min_eq_right (Nat.mod_lt _ (pos_of_ne_zero hworkers)).le
  rw [Nat.zero_mul, Nat.zero_min, Nat.add_zero, hextra, Nat.div_add_mod] at htiles
  rw [partitions, List.map_map]
  exact htiles

theorem itemCount_le {items : UInt64} {workers : UInt32} {p q : WorkPartition}
    (hp : p ∈ partitions items workers) (hq : q ∈ partitions items workers) :
    p.itemCount.toNat ≤ q.itemCount.toNat + 1 := by
  have hcount : ∀ p ∈ partitions items workers,
      items.toNat / workers.toNat ≤ p.itemCount.toNat ∧
        p.itemCount.toNat ≤ items.toNat / workers.toNat + 1 := by
    intro p hp
    obtain ⟨w, hw, rfl⟩ := List.mem_map.1 hp
    have h := congrArg Prod.snd (toNat_partitionWork items (List.mem_range.1 hw))
    rw [show (partitionWork items workers (UInt32.ofNat w)).itemCount.toNat = _ from h]
    unfold partitionOf
    dsimp only
    split_ifs <;> omega
  have := hcount p hp
  have := hcount q hq
  omega

/-- Chunks of a message and partitions of work items tile what they divide, and every number in them
is that of the integers. -/
theorem transferChunking_correct (total items : UInt64) (workers : UInt32) (policy : ChunkPolicy)
    (hM : policy.maxChunkBytes ≠ 0) (hm : policy.minimumTailBytes ≤ policy.maxChunkBytes / 2)
    (hworkers : workers ≠ 0) :
    (Tiles 0 total.toNat ((chunks (makeChunkPlan total policy)).map fun c =>
        (c.offsetBytes.toNat, c.sizeBytes.toNat)) ∧
      (∀ c ∈ chunks (makeChunkPlan total policy), c.sizeBytes ≤ policy.maxChunkBytes ∧
        (2 ≤ (chunks (makeChunkPlan total policy)).length →
          min policy.minimumTailBytes.toNat policy.maxChunkBytes.toNat ≤ c.sizeBytes.toNat)) ∧
      ((makeChunkPlan total policy).chunkCount.toNat : ℤ) =
        exactChunkCount total.toNat policy.maxChunkBytes.toNat ∧
      ∀ i : UInt64, i < (makeChunkPlan total policy).chunkCount →
        (((getChunk (makeChunkPlan total policy) i).offsetBytes.toNat : ℤ),
          ((getChunk (makeChunkPlan total policy) i).sizeBytes.toNat : ℤ)) =
          exactChunk total.toNat policy.maxChunkBytes.toNat policy.minimumTailBytes.toNat
            i.toNat) ∧
    (Tiles 0 items.toNat ((partitions items workers).map fun p =>
        (p.firstItem.toNat, p.itemCount.toNat)) ∧
      (∀ p ∈ partitions items workers, ∀ q ∈ partitions items workers,
        p.itemCount.toNat ≤ q.itemCount.toNat + 1) ∧
      ∀ w : UInt32, w < workers →
        (((partitionWork items workers w).firstItem.toNat : ℤ),
          ((partitionWork items workers w).itemCount.toNat : ℤ)) =
          exactPartition items.toNat workers.toNat w.toNat) := by
  refine ⟨⟨tiles_chunks hM hm, fun c hc => size_of_mem_chunks hM hm hc, ?_, ?_⟩,
    tiles_partitions hworkers, fun p hp q hq => itemCount_le hp hq,
    fun w hw => exactPartition_eq_toNat hw⟩
  · rw [toNat_chunkCount hM, exactChunkCount_eq]
  · intro i hi
    have hlt := UInt64.lt_iff_toNat_lt.1 hi
    have hchunk := toNat_getChunk hM hm hlt
    rw [UInt64.ofNat_toNat] at hchunk
    rw [toNat_chunkCount hM] at hlt
    rw [exactChunk_eq (pos_of_ne_zero hM) (le_half hm) hlt, ← hchunk]

/-- Seven chunks, the last two balanced. -/
theorem transferChunking_correct_balanced :
    Tiles 0 (100 : UInt64).toNat ((chunks (makeChunkPlan 100 ⟨16, 8⟩)).map fun c =>
      (c.offsetBytes.toNat, c.sizeBytes.toNat)) :=
  (transferChunking_correct 100 7 3 ⟨16, 8⟩ (by decide) (by decide) (by decide)).1.1

end Words

end HyperParallel.Shmem

import HyperParallel.Lib.Intervals
import Mathlib.Algebra.Order.Ring.Int

/-!
# Sequence boundaries

`IndexedBoundaryResolver.resolve` of `data/batching/sequence_boundaries.py`,
`ParallelBatch._build_local_position_ids` of `data/batching/get_batch.py` and
`build_dense_attention_masks` of `data/batching/attention_runtime.py`.

* `resolve`: the boundaries of a batch of token rows;
* `localPositionIds`, `buildDenseAttentionMasks`: what is built from boundaries;
* `boundaries_agree`: the positions and the mask follow the intervals between the boundaries.
-/

open Intervals

namespace HyperParallel.Data

/-! ### Boundaries -/

/-- The token rows of a batch, of a length that is positive, as the configuration checks. -/
structure TokenRows where
  seqLen : ℕ
  rows : List (List ℤ)
  rows_length : ∀ row ∈ rows, row.length = seqLen
  seqLen_pos : 0 < seqLen

/-- `eod_indices` -/
def eodIndices (eodTokenId : Option ℤ) (row : List ℤ) : List ℕ :=
  match eodTokenId with
  | none => []
  | some eod => (List.range row.length).filter fun i => row[i]? = some eod

/-- The loop over the end tokens of a row: it stops where one follows another. -/
def eodEnds (rowStart : ℕ) : ℤ → List ℕ → List ℕ
  | _, [] => []
  | prevEodIdx, eodIdx :: eodIndices =>
    if (eodIdx : ℤ) = prevEodIdx then []
    else (rowStart + eodIdx + 1) :: eodEnds rowStart (eodIdx + 1) eodIndices

/-- The sequence ends after a row. -/
def rowEnds (eodTokenId : Option ℤ) (seqLen : ℕ) (seqEnds : List ℕ) (entry : List ℤ × ℕ) :
    List ℕ :=
  let seqEnds := seqEnds ++ eodEnds (entry.2 * seqLen) (-1) (eodIndices eodTokenId entry.1)
  let rowEnd := (entry.2 + 1) * seqLen
  if seqEnds.getLast? = some rowEnd then seqEnds else seqEnds ++ [rowEnd]

/-- `cu_seq_lens` before it becomes a tensor. -/
def cuSeqLens (batch : TokenRows) (eodTokenId : Option ℤ) : List ℕ :=
  0 :: batch.rows.zipIdx.foldl (rowEnds eodTokenId batch.seqLen) []

/-- `IndexedBoundaryResolver.resolve`; a tensor of `int32` holds no larger boundaries. -/
def resolve (batch : TokenRows) (eodTokenId : Option ℤ) : Except String (List ℕ) :=
  if (cuSeqLens batch eodTokenId).all (· < 2 ^ 31) then .ok (cuSeqLens batch eodTokenId)
  else .error "value cannot be converted to type int32 without overflow"

section Resolve

variable {eodTokenId : Option ℤ} {seqLen rowStart : ℕ} {row : List ℤ} {seqEnds : List ℕ}

theorem eodEnds_sublist (prev : ℤ) (indices : List ℕ) :
    (eodEnds rowStart prev indices).Sublist (indices.map fun i => rowStart + i + 1) := by
  induction indices generalizing prev with
  | nil => exact List.Sublist.refl _
  | cons i indices ih =>
    rw [eodEnds]
    split_ifs
    · exact List.nil_sublist _
    · exact (ih _).cons_cons _

theorem eodEnds_increasing (prev : ℤ) : (eodEnds rowStart prev (eodIndices eodTokenId row)).Pairwise
    (· < ·) := by
  refine List.Pairwise.sublist (eodEnds_sublist _ _) ?_
  unfold eodIndices
  cases eodTokenId with
  | none => exact List.Pairwise.nil
  | some eod =>
    refine (List.pairwise_lt_range.filter _).map _ fun i j hij => ?_
    omega

theorem mem_eodEnds {prev : ℤ} {p : ℕ}
    (h : p ∈ eodEnds rowStart prev (eodIndices eodTokenId row)) :
    rowStart < p ∧ p ≤ rowStart + row.length := by
  have hmem := (eodEnds_sublist _ _).subset h
  unfold eodIndices at hmem
  cases eodTokenId with
  | none => cases hmem
  | some eod =>
    obtain ⟨i, hi, rfl⟩ := List.mem_map.1 hmem
    have := List.mem_range.1 (List.mem_of_mem_filter hi)
    omega

/-- The sequence ends of the first rows. -/
structure EndsOf (seqLen n : ℕ) (seqEnds : List ℕ) : Prop where
  increasing : seqEnds.Pairwise (· < ·)
  pos : ∀ p ∈ seqEnds, 0 < p ∧ p ≤ n * seqLen
  last : 0 < n → seqEnds.getLast? = some (n * seqLen)
  rowEnd : ∀ b < n, (b + 1) * seqLen ∈ seqEnds

theorem EndsOf.rowEnds {n : ℕ} (h : EndsOf seqLen n seqEnds) (hpos : 0 < seqLen)
    (hrow : row.length = seqLen) :
    EndsOf seqLen (n + 1) (rowEnds eodTokenId seqLen seqEnds (row, n)) := by
  have hnext : (n + 1) * seqLen = n * seqLen + seqLen := Nat.succ_mul n seqLen
  have hends : ∀ p ∈ eodEnds (n * seqLen) (-1) (eodIndices eodTokenId row),
      n * seqLen < p ∧ p ≤ (n + 1) * seqLen := by
    intro p hp
    rw [hnext, ← hrow]
    rw [← hrow] at hp
    exact mem_eodEnds hp
  have hincreasing : (seqEnds ++ eodEnds (n * seqLen) (-1) (eodIndices eodTokenId row)).Pairwise
      (· < ·) := by
    refine List.pairwise_append.2 ⟨h.increasing, eodEnds_increasing _, fun p hp q hq => ?_⟩
    have := (h.pos p hp).2
    have := (hends q hq).1
    omega
  have hall : ∀ p ∈ seqEnds ++ eodEnds (n * seqLen) (-1) (eodIndices eodTokenId row),
      0 < p ∧ p ≤ (n + 1) * seqLen := by
    intro p hp
    rcases List.mem_append.1 hp with hp | hp
    · have := h.pos p hp
      omega
    · have := hends p hp
      omega
  unfold Data.rowEnds
  simp only
  split_ifs with hlast
  · refine ⟨hincreasing, hall, fun _ => hlast, fun b hb => ?_⟩
    rcases Nat.lt_succ_iff_lt_or_eq.1 hb with hb | rfl
    · exact List.mem_append_left _ (h.rowEnd b hb)
    · exact List.mem_of_getLast? hlast
  · refine ⟨?_, fun p hp => ?_, fun _ => List.getLast?_concat, fun b hb => ?_⟩
    · refine List.pairwise_append.2 ⟨hincreasing, List.pairwise_singleton _ _, fun p hp q hq => ?_⟩
      rw [List.mem_singleton.1 hq]
      refine Nat.lt_of_le_of_ne (hall p hp).2 fun heq => hlast ?_
      rw [← heq]
      exact (getLast?_eq_iff hincreasing).2 ⟨hp, fun x hx => heq ▸ (hall x hx).2⟩
    · rcases List.mem_append.1 hp with hp | hp
      · exact hall p hp
      · rw [List.mem_singleton.1 hp]
        omega
    · rcases Nat.lt_succ_iff_lt_or_eq.1 hb with hb | rfl
      · exact List.mem_append_left _ (List.mem_append_left _ (h.rowEnd b hb))
      · exact List.mem_append_right _ (List.mem_singleton_self _)

theorem endsOf_foldl (hpos : 0 < seqLen) (rows : List (List ℤ))
    (hrows : ∀ row ∈ rows, row.length = seqLen) :
    EndsOf seqLen rows.length (rows.zipIdx.foldl (rowEnds eodTokenId seqLen) []) := by
  induction rows using List.reverseRecOn with
  | nil =>
    exact ⟨List.Pairwise.nil, fun _ h => absurd h List.not_mem_nil, fun h => absurd h (by decide),
      fun b hb => absurd hb (Nat.not_lt_zero b)⟩
  | append_singleton rows row ih =>
    have hbefore := ih fun row' hmem => hrows row' (List.mem_append_left _ hmem)
    rw [List.zipIdx_append, List.foldl_append, List.length_append, List.length_singleton,
      Nat.zero_add]
    exact hbefore.rowEnds hpos (hrows row (by simp))

/-- The boundaries of a batch are boundaries of its rows. -/
theorem isBoundaries_cuSeqLens (batch : TokenRows) (eodTokenId : Option ℤ) :
    IsBoundaries batch.rows.length batch.seqLen (cuSeqLens batch eodTokenId) := by
  have h : EndsOf batch.seqLen batch.rows.length
      (batch.rows.zipIdx.foldl (rowEnds eodTokenId batch.seqLen) []) :=
    endsOf_foldl batch.seqLen_pos batch.rows batch.rows_length
  unfold cuSeqLens
  refine ⟨rfl, ?_, ?_, fun b hb => ?_⟩
  · exact List.pairwise_cons.2 ⟨fun p hp => (h.pos p hp).1, h.increasing⟩
  · rcases Nat.eq_zero_or_pos batch.rows.length with hzero | hpos
    · rw [List.length_eq_zero_iff.1 hzero]
      simp
    · rw [List.getLast?_cons, h.last hpos]
      rfl
  · cases b with
    | zero =>
      rw [Nat.zero_mul]
      exact List.mem_cons_self
    | succ b => exact List.mem_cons_of_mem _ (h.rowEnd b hb)

theorem resolve_eq_ok_iff (batch : TokenRows) (eodTokenId : Option ℤ) {l : List ℕ} :
    resolve batch eodTokenId = .ok l ↔
      batch.rows.length * batch.seqLen < 2 ^ 31 ∧ l = cuSeqLens batch eodTokenId := by
  have h := isBoundaries_cuSeqLens batch eodTokenId
  have hall : (cuSeqLens batch eodTokenId).all (· < 2 ^ 31) = true ↔
      batch.rows.length * batch.seqLen < 2 ^ 31 := by
    simp only [List.all_eq_true, decide_eq_true_eq]
    constructor
    · exact fun hlt => hlt _ (List.mem_of_getLast? h.last)
    · exact fun hlt p hp =>
        Nat.lt_of_le_of_lt (((getLast?_eq_iff h.increasing).1 h.last).2 p hp) hlt
  unfold resolve
  split_ifs with hok
  · exact ⟨fun heq => ⟨hall.1 hok, (Except.ok.inj heq).symm⟩, fun heq => congrArg _ heq.2.symm⟩
  · exact iff_of_false (fun heq => by cases heq) fun heq => hok (hall.2 heq.1)

end Resolve

/-! ### Positions -/

/-- A sequence of the loop over the boundaries: its positions on the rank start anew. -/
def shiftSequence (globalSeqLen cpSeqStart cpSeqEnd : ℕ) (ids : ℕ → ℕ → ℤ) (sequence : ℕ × ℕ) :
    ℕ → ℕ → ℤ :=
  let seqLen := sequence.2 - sequence.1
  let batchIdx := sequence.1 / globalSeqLen
  let seqStartInBatch := sequence.1 % globalSeqLen
  let seqEndInBatch := seqStartInBatch + seqLen
  let sliceStart := max seqStartInBatch cpSeqStart
  let sliceEnd := min seqEndInBatch cpSeqEnd
  if sliceEnd ≤ sliceStart then ids
  else
    let localStart := sliceStart - cpSeqStart
    let localEnd := sliceEnd - cpSeqStart
    fun b i => if b = batchIdx ∧ localStart ≤ i ∧ i < localEnd then ids b i - seqStartInBatch
      else ids b i

/-- `_build_local_position_ids`: the entry of a row and a local position. -/
def localPositionIds (resetPositionIds : Bool) (localSeqLen cpSize cpRank : ℕ)
    (cuSeqLens : List ℕ) : ℕ → ℕ → ℤ :=
  let globalSeqLen := localSeqLen * cpSize
  let cpSeqStart := cpRank * localSeqLen
  let cpSeqEnd := cpSeqStart + localSeqLen
  let positionIds : ℕ → ℕ → ℤ := fun _ i => (cpSeqStart + i : ℕ)
  if resetPositionIds then
    (consecutive cuSeqLens).foldl (shiftSequence globalSeqLen cpSeqStart cpSeqEnd) positionIds
  else positionIds

/-- The position ids of all ranks, row by row. -/
def gatherPositions (resetPositionIds : Bool) (batchSize localSeqLen cpSize : ℕ)
    (cuSeqLens : List ℕ) : List ℤ :=
  (List.range batchSize).flatMap fun b => (List.range cpSize).flatMap fun r =>
    (List.range localSeqLen).map fun i =>
      localPositionIds resetPositionIds localSeqLen cpSize r cuSeqLens b i

/-! ### Masks -/

/-- A boolean tensor of axes batch, query and key. -/
structure Mask where
  batch : ℕ
  allowed : ℕ → ℕ → ℕ → Bool

/-- A boundary: what is behind it in its row does not attend to what is before it. -/
def maskBoundary (seqLength : ℕ) (allowed : ℕ → ℕ → ℕ → Bool) (seqStart : ℕ) :
    ℕ → ℕ → ℕ → Bool :=
  let batchIdx := seqStart / seqLength
  let rowSeqStart := seqStart % seqLength
  fun b q k => if b = batchIdx ∧ rowSeqStart ≤ q ∧ k < rowSeqStart then false else allowed b q k

/-- `attention_mask` -/
def attentionMask (cuSeqLens : List ℕ) (microBatchSize seqLength : ℕ)
    (resetAttentionMask : Bool) : Mask where
  batch := if resetAttentionMask then microBatchSize else 1
  allowed :=
    let causal : ℕ → ℕ → ℕ → Bool := fun _ q k => decide (k ≤ q)
    if resetAttentionMask then cuSeqLens.dropLast.foldl (maskBoundary seqLength) causal
    else causal

/-- `swa_mask` -/
def Mask.sliding (mask : Mask) (slidingWindow : ℤ) : Mask where
  batch := mask.batch
  allowed b q k := mask.allowed b q k && !decide (slidingWindow < (q : ℤ) - k)

/-- `build_dense_attention_masks` -/
def buildDenseAttentionMasks (cuSeqLens : List ℕ) (microBatchSize seqLength : ℕ)
    (resetAttentionMask : Bool) (slidingWindow : Option ℤ) :
    Except String (Mask × Option Mask) :=
  if cuSeqLens.length < 2 ∨ cuSeqLens.head? ≠ some 0 then
    .error "cu_seq_lens must contain a leading zero and at least one sequence"
  else if (consecutive cuSeqLens).any fun i => i.2 ≤ i.1 then
    .error "cu_seq_lens must be strictly increasing"
  else if cuSeqLens.getLast? ≠ some (microBatchSize * seqLength) then
    .error ("cu_seq_lens must cover the physical batch length (" ++
      toString (microBatchSize * seqLength) ++ "), but got " ++
      toString (cuSeqLens.getLastD 0))
  else
    let mask := attentionMask cuSeqLens microBatchSize seqLength resetAttentionMask
    .ok (mask, slidingWindow.map mask.sliding)

/-! ### The boundaries are followed -/

section Agree

variable {l : List ℕ} {B L c S r b i p s e : ℕ}

/-- The position of an entry in the flattened batch lies in the row of the entry. -/
theorem row_of_entry (hb : b < B) (hr : r < c) (hiL : i < L) :
    r * L + i < L * c ∧ b * (L * c) + (r * L + i) < B * (L * c) ∧
      (b * (L * c) + (r * L + i)) / (L * c) = b := by
  have hcol : r * L + i < L * c := by
    have hrow : (r + 1) * L ≤ c * L := Nat.mul_le_mul_right L hr
    rw [Nat.succ_mul, Nat.mul_comm c L] at hrow
    omega
  refine ⟨hcol, ?_, ?_⟩
  · have hnext : (b + 1) * (L * c) ≤ B * (L * c) := Nat.mul_le_mul_right _ hb
    rw [Nat.succ_mul] at hnext
    omega
  · rw [Nat.mul_comm b, Nat.mul_add_div (by omega), Nat.div_eq_of_lt hcol, Nat.add_zero]

/-- The position of an entry in the flattened batch lies in a sequence exactly when the entry is
shifted for it. -/
theorem shiftSequence_apply (h : IsBoundaries B (L * c) l) (hi : (s, e) ∈ consecutive l)
    (ids : ℕ → ℕ → ℤ) (hb : b < B) (hr : r < c) (hiL : i < L) :
    shiftSequence (L * c) (r * L) (r * L + L) ids (s, e) b i =
      if s ≤ b * (L * c) + (r * L + i) ∧ b * (L * c) + (r * L + i) < e then
        ids b i - (s % (L * c) : ℕ) else ids b i := by
  have hsize : 0 < L * c := Nat.mul_pos (by omega) (by omega)
  have hlt := lt_of_consecutive h.increasing hi
  have hse : s < B * (L * c) := by
    have hmem := (mem_of_consecutive hi).2.2
    have hle := ((getLast?_eq_iff h.increasing).1 h.last).2 e hmem
    omega
  have hin := (h.div_eq hsize hi (le_refl s) hlt hse).2
  obtain ⟨hcol, hp, hdiv⟩ := row_of_entry hb hr hiL
  have hsplit := Nat.div_add_mod s (L * c)
  have hrow : s ≤ b * (L * c) + (r * L + i) → b * (L * c) + (r * L + i) < e →
      b = s / (L * c) := by
    intro hs he
    rw [(h.div_eq hsize hi hs he hp).1, hdiv]
  have hmul : b = s / (L * c) → b * (L * c) + s % (L * c) = s := by
    intro heq
    rw [heq, Nat.mul_comm]
    exact hsplit
  unfold shiftSequence
  simp only
  by_cases hempty : min (s % (L * c) + (e - s)) (r * L + L) ≤ max (s % (L * c)) (r * L)
  · -- no position of the sequence lies on the rank
    rw [if_pos hempty, if_neg]
    rintro ⟨hs, he⟩
    have := hmul (hrow hs he)
    omega
  · rw [if_neg hempty]
    refine if_congr ⟨?_, ?_⟩ rfl rfl
    · rintro ⟨hbatch, hfrom, hto⟩
      have := hmul hbatch
      omega
    · rintro ⟨hs, he⟩
      have hbatch := hrow hs he
      have := hmul hbatch
      exact ⟨hbatch, by omega, by omega⟩

/-- After some sequences an entry is shifted for those that its position lies in. -/
theorem foldl_shiftSequence (h : IsBoundaries B (L * c) l) (hb : b < B) (hr : r < c) (hiL : i < L)
    (sequences : List (ℕ × ℕ)) (hsub : ∀ sequence ∈ sequences, sequence ∈ consecutive l)
    (ids : ℕ → ℕ → ℤ) :
    sequences.foldl (shiftSequence (L * c) (r * L) (r * L + L)) ids b i = ids b i -
      ((sequences.filter fun sequence => sequence.1 ≤ b * (L * c) + (r * L + i) ∧
        b * (L * c) + (r * L + i) < sequence.2).map
          fun sequence => ((sequence.1 % (L * c) : ℕ) : ℤ)).sum := by
  induction sequences generalizing ids with
  | nil => simp
  | cons sequence sequences ih =>
    rw [List.forall_mem_cons] at hsub
    rw [List.foldl_cons, ih hsub.2, shiftSequence_apply h hsub.1 ids hb hr hiL, List.filter_cons]
    simp only [decide_eq_true_eq]
    split_ifs
    · rw [List.map_cons, List.sum_cons]
      exact Int.sub_sub _ _ _
    · rfl

/-- A position id counts from the start of the sequence. -/
theorem localPositionIds_eq (h : IsBoundaries B (L * c) l) (hb : b < B) (hr : r < c) (hiL : i < L)
    (hi : (s, e) ∈ consecutive l) (hs : s ≤ b * (L * c) + (r * L + i))
    (he : b * (L * c) + (r * L + i) < e) :
    localPositionIds true L c r l b i = (b * (L * c) + (r * L + i) - s : ℕ) := by
  have hsize : 0 < L * c := Nat.mul_pos (by omega) (by omega)
  obtain ⟨-, hp, hdiv⟩ := row_of_entry hb hr hiL
  have hbatch := (h.div_eq hsize hi hs he hp).1
  have hsplit := Nat.div_add_mod s (L * c)
  rw [hbatch, hdiv, Nat.mul_comm] at hsplit
  unfold localPositionIds
  simp only [if_true]
  rw [foldl_shiftSequence h hb hr hiL _ (fun _ hmem => hmem),
    filter_covers h.increasing hi hs he]
  simp only [List.map_cons, List.map_nil, List.sum_cons, List.sum_nil]
  omega

/-- An entry of the position ids of all ranks. -/
theorem gatherPositions_getElem? (reset : Bool) (hL : 0 < L) (hp : p < B * (L * c)) :
    (gatherPositions reset B L c l)[p]? = some (localPositionIds reset L c (p % (L * c) / L) l
      (p / (L * c)) (p % (L * c) % L)) := by
  have hgather : gatherPositions reset B L c l = (List.range (B * (L * c))).map fun p =>
      localPositionIds reset L c (p % (L * c) / L) l (p / (L * c)) (p % (L * c) % L) := by
    rw [← flatMap_range_mul]
    refine List.flatMap_congr fun b _ => ?_
    have hinner := flatMap_range_mul
      (fun x => localPositionIds reset L c (x / L) l b (x % L)) L c
    have hleft : ((List.range c).flatMap fun r => (List.range L).map fun i =>
        localPositionIds reset L c ((r * L + i) / L) l b ((r * L + i) % L)) =
        (List.range c).flatMap fun r => (List.range L).map fun i =>
          localPositionIds reset L c r l b i := by
      refine List.flatMap_congr fun r _ => List.map_congr_left fun i hi => ?_
      have hiL := List.mem_range.1 hi
      rw [Nat.mul_comm r L, Nat.mul_add_div hL, Nat.div_eq_of_lt hiL, Nat.add_zero,
        Nat.mul_add_mod, Nat.mod_eq_of_lt hiL]
    rw [← hleft, hinner, Nat.mul_comm c L]
    refine List.map_congr_left fun x hx => ?_
    have hxlt := List.mem_range.1 hx
    rw [Nat.mul_comm b, Nat.mul_add_mod, Nat.mod_eq_of_lt hxlt,
      Nat.mul_add_div (Nat.zero_lt_of_lt hxlt), Nat.div_eq_of_lt hxlt, Nat.add_zero]
  rw [hgather, List.getElem?_map, List.getElem?_range hp]
  rfl

/-! ### What a mask allows -/

theorem foldl_maskBoundary (starts : List ℕ) (allowed : ℕ → ℕ → ℕ → Bool) (q k : ℕ) :
    starts.foldl (maskBoundary S) allowed b q k = true ↔ allowed b q k = true ∧
      ∀ t ∈ starts, ¬ (b = t / S ∧ t % S ≤ q ∧ k < t % S) := by
  induction starts generalizing allowed with
  | nil => simp
  | cons t starts ih =>
    rw [List.foldl_cons, ih, List.forall_mem_cons]
    have hbehind : maskBoundary S allowed t b q k =
        if b = t / S ∧ t % S ≤ q ∧ k < t % S then false else allowed b q k := rfl
    rw [hbehind]
    split_ifs with ht
    · exact iff_of_false (fun h => by simp at h) fun h => h.2.1 ht
    · exact ⟨fun h => ⟨h.1, ht, h.2⟩, fun h => ⟨h.1, h.2.2⟩⟩

/-- Behind no boundary of its row that is before the query: in the sequence of the query. -/
theorem not_behind_iff (h : IsBoundaries B S l) {q k : ℕ} (hb : b < B) (hq : q < S) :
    (∀ t ∈ l.dropLast, ¬ (b = t / S ∧ t % S ≤ q ∧ k < t % S)) ↔
      ∃ s e, (s, e) ∈ consecutive l ∧ s ≤ b * S + k ∧ b * S + q < e := by
  have hsize : 0 < S := Nat.zero_lt_of_lt hq
  have hp : b * S + q < B * S := by
    have hnext : (b + 1) * S ≤ B * S := Nat.mul_le_mul_right _ hb
    rw [Nat.succ_mul] at hnext
    omega
  have hrow : ∀ t, b = t / S → b * S + t % S = t := by
    rintro t rfl
    rw [Nat.mul_comm]
    exact Nat.div_add_mod t S
  constructor
  · intro hnot
    obtain ⟨s, e, hi, hs, he⟩ := h.exists_interval hp
    have hdiv : (b * S + q) / S = b := by
      rw [Nat.mul_comm, Nat.mul_add_div hsize, Nat.div_eq_of_lt hq, Nat.add_zero]
    have hbatch : b = s / S := by rw [(h.div_eq hsize hi hs he hp).1, hdiv]
    have hbehind := hnot s (mem_of_consecutive hi).1
    have := hrow s hbatch
    refine ⟨s, e, hi, ?_, he⟩
    by_contra hlt
    exact hbehind ⟨hbatch, by omega, by omega⟩
  · rintro ⟨s, e, hi, hs, he⟩ t ht ⟨hbatch, htq, hkt⟩
    have := hrow t hbatch
    rcases le_or_le_of_mem h.increasing hi ((List.dropLast_sublist l).subset ht) with hle | hle
    · omega
    · omega

/-- Boundaries of at least one row pass the checks. -/
theorem buildDenseAttentionMasks_eq (h : IsBoundaries B S l) (hB : 0 < B) (hS : 0 < S)
    (reset : Bool) (window : Option ℤ) : buildDenseAttentionMasks l B S reset window =
      .ok (attentionMask l B S reset, window.map (attentionMask l B S reset).sliding) := by
  have hlength : ¬ (l.length < 2 ∨ l.head? ≠ some 0) := by
    rintro (hlt | hne)
    · have hfirst := h.rowEnd 0 (Nat.zero_le B)
      have hlast := h.rowEnd B (le_refl B)
      have hpos := Nat.mul_pos hB hS
      rw [Nat.zero_mul] at hfirst
      obtain ⟨a, rfl⟩ | hnil : (∃ a, l = [a]) ∨ l = [] := by
        cases l with
        | nil => exact .inr rfl
        | cons a l =>
          cases l with
          | nil => exact .inl ⟨a, rfl⟩
          | cons b l => exact absurd hlt (by simp)
      · have h0 := List.mem_singleton.1 hfirst
        have hB := List.mem_singleton.1 hlast
        omega
      · rw [hnil] at hfirst
        cases hfirst
    · exact hne h.first
  have hascending : ¬ ((consecutive l).any fun i => i.2 ≤ i.1) = true := by
    intro hany
    obtain ⟨i, hi, hle⟩ := List.any_eq_true.1 hany
    have hlt := lt_of_consecutive (s := i.1) (e := i.2) h.increasing hi
    simp only [decide_eq_true_eq] at hle
    omega
  unfold buildDenseAttentionMasks
  rw [if_neg hlength, if_neg hascending, if_neg (not_not.2 h.last)]

theorem attentionMask_reset_iff (h : IsBoundaries B S l) {q k : ℕ} (hb : b < B) (hq : q < S) :
    (attentionMask l B S true).allowed b q k = true ↔ k ≤ q ∧ ∃ s e, (s, e) ∈ consecutive l ∧
      (s ≤ b * S + q ∧ b * S + q < e) ∧ s ≤ b * S + k ∧ b * S + k < e := by
  have hallowed : (attentionMask l B S true).allowed =
      l.dropLast.foldl (maskBoundary S) fun _ q k => decide (k ≤ q) := rfl
  rw [hallowed, foldl_maskBoundary, not_behind_iff h hb hq, decide_eq_true_eq]
  refine and_congr_right fun hkq => ?_
  constructor
  · rintro ⟨s, e, hi, hs, he⟩
    exact ⟨s, e, hi, ⟨by omega, he⟩, hs, by omega⟩
  · rintro ⟨s, e, hi, ⟨-, he⟩, hs, -⟩
    exact ⟨s, e, hi, hs, he⟩

/-- The positions and the mask that are built from boundaries: with a reset they follow the
intervals, without they are those of the rows. -/
structure FollowsBoundaries (B L c : ℕ) (l : List ℕ) : Prop where
  positions : ∀ s e, (s, e) ∈ consecutive l → ∀ i < e - s,
    (gatherPositions true B L c l)[s + i]? = some (i : ℤ)
  rowPositions : ∀ b < B, ∀ i < L * c,
    (gatherPositions false B L c l)[b * (L * c) + i]? = some (i : ℤ)
  built : 0 < B → ∀ reset window, buildDenseAttentionMasks l B (L * c) reset window =
    .ok (attentionMask l B (L * c) reset,
      window.map (attentionMask l B (L * c) reset).sliding)
  mask : (attentionMask l B (L * c) true).batch = B ∧ ∀ b < B, ∀ q < L * c, ∀ k < L * c,
    ((attentionMask l B (L * c) true).allowed b q k = true ↔ k ≤ q ∧
      ∃ s e, (s, e) ∈ consecutive l ∧ (s ≤ b * (L * c) + q ∧ b * (L * c) + q < e) ∧
        s ≤ b * (L * c) + k ∧ b * (L * c) + k < e)
  causalMask : (attentionMask l B (L * c) false).batch = 1 ∧ ∀ q < L * c, ∀ k < L * c,
    ((attentionMask l B (L * c) false).allowed 0 q k = true ↔ k ≤ q)

theorem localPositionIds_false (r i : ℕ) :
    localPositionIds false L c r l b i = (r * L + i : ℕ) := rfl

theorem followsBoundaries (h : IsBoundaries B (L * c) l) (hL : 0 < L) (hc : 0 < c) :
    FollowsBoundaries B L c l where
  positions s e hi i hlt := by
    have hsize : 0 < L * c := Nat.mul_pos hL hc
    have hle := ((getLast?_eq_iff h.increasing).1 h.last).2 e (mem_of_consecutive hi).2.2
    have hp : s + i < B * (L * c) := by omega
    have hmod := Nat.mod_lt (s + i) hsize
    have hb : (s + i) / (L * c) < B := Nat.div_lt_of_lt_mul (by rwa [Nat.mul_comm])
    have hr : (s + i) % (L * c) / L < c := Nat.div_lt_of_lt_mul hmod
    have hcol := Nat.div_add_mod ((s + i) % (L * c)) L
    have hflat := Nat.div_add_mod (s + i) (L * c)
    rw [Nat.mul_comm] at hcol hflat
    rw [gatherPositions_getElem? true hL hp, localPositionIds_eq h hb hr (Nat.mod_lt _ hL) hi]
    · rw [hcol, hflat, Nat.add_sub_cancel_left]
    · rw [hcol, hflat]
      omega
    · rw [hcol, hflat]
      omega
  rowPositions b hb i hi := by
    have hp : b * (L * c) + i < B * (L * c) := by
      have hnext : (b + 1) * (L * c) ≤ B * (L * c) := Nat.mul_le_mul_right _ hb
      rw [Nat.succ_mul] at hnext
      omega
    have hcol := Nat.div_add_mod i L
    rw [gatherPositions_getElem? false hL hp, Nat.mul_comm b, Nat.mul_add_mod,
      Nat.mod_eq_of_lt hi, localPositionIds_false, Nat.mul_comm (i / L), hcol]
  built hB reset window := buildDenseAttentionMasks_eq h hB (Nat.mul_pos hL hc) reset window
  mask := ⟨rfl, fun _ hb _ hq _ _ => attentionMask_reset_iff h hb hq⟩
  causalMask := ⟨rfl, fun _ _ _ _ => decide_eq_true_iff⟩

/-- Boundaries are returned when they fit into `int32`, they are boundaries of the rows, and the
positions and masks built from any boundaries follow them. -/
theorem boundaries_agree :
    (∀ (batch : TokenRows) (eodTokenId : Option ℤ),
      ((∃ l, resolve batch eodTokenId = .ok l) ↔ batch.rows.length * batch.seqLen < 2 ^ 31) ∧
        ∀ l, resolve batch eodTokenId = .ok l →
          IsBoundaries batch.rows.length batch.seqLen l) ∧
    ∀ (B L c : ℕ) (l : List ℕ), 0 < L → 0 < c → IsBoundaries B (L * c) l →
      FollowsBoundaries B L c l := by
  refine ⟨fun batch eodTokenId => ⟨⟨?_, fun hlt => ⟨_, (resolve_eq_ok_iff _ _).2 ⟨hlt, rfl⟩⟩⟩,
    fun l h => ?_⟩, fun B L c l hL hc h => followsBoundaries h hL hc⟩
  · rintro ⟨l, h⟩
    exact ((resolve_eq_ok_iff _ _).1 h).1
  · rw [((resolve_eq_ok_iff _ _).1 h).2]
    exact isBoundaries_cuSeqLens _ _

/-- Without a reset neither the positions nor the mask know of the end token in a row of two. -/
theorem not_boundaries_agree_without_reset :
    (∃ batch : TokenRows, batch.seqLen = 2 ∧ resolve batch (some 7) = .ok [0, 1, 2]) ∧
      (1, 2) ∈ consecutive [0, 1, 2] ∧
      (gatherPositions false 1 2 1 [0, 1, 2])[1]? = some 1 ∧
      (attentionMask [0, 1, 2] 1 2 false).allowed 0 1 0 = true ∧
      ¬ ∃ s e, (s, e) ∈ consecutive [0, 1, 2] ∧ s ≤ 0 ∧ 1 < e := by
  refine ⟨⟨⟨2, [[7, 5]], by decide, by decide⟩, rfl, by decide⟩, by decide, by decide,
    by decide, ?_⟩
  have hlist : consecutive [0, 1, 2] = [(0, 1), (1, 2)] := rfl
  rintro ⟨s, e, hi, hs, he⟩
  rw [hlist] at hi
  simp at hi
  omega

end Agree

end HyperParallel.Data

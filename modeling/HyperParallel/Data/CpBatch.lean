import HyperParallel.Lib.Dict
import HyperParallel.Lib.Shares
import Mathlib.Algebra.Order.Ring.Nat
import Mathlib.Algebra.BigOperators.Group.List.Basic
import Mathlib.Order.Interval.Finset.Nat
import Mathlib.Tactic.Common

/-!
# Batches sharded for context parallelism

`shard_batch_for_cp` and `_shard_seq_lens_for_cp` of `data/parallel/batch_parallel.py`.

* `RowTensor`, `Batch`: the fields of a batch, with the rows along their last axis;
* `shardBatchForCp`: the slice of a rank, with its pack lists;
* `cutPacks`: the packs cut at the boundaries of a rank, as intervals of positions;
* `shardBatchForCp_correct`: the slices are the padded rows, and the pack lists are those cut.
-/

namespace HyperParallel.Data.CpBatch

/-! ### The functions of the source -/

/-- An integer tensor of any rank as its rows along the last axis; nothing else of it is used. -/
structure RowTensor where
  cols : ℕ
  rows : List (List ℤ)
  rows_length : ∀ row ∈ rows, row.length = cols

/-- A field of a batch: a tensor with axes, or anything else. -/
inductive Field
  | tensor (t : RowTensor)
  | other (value : String)

/-- A batch: its fields by name. -/
abbrev Batch := List (String × Field)

/-- A row padded for the field `key`. -/
def padRow (key : String) (padLen : ℕ) (row : List ℤ) : List ℤ :=
  if key = "position_ids" then
    row ++ (List.range padLen).map fun i => (i : ℤ) + 1 + row.getLastD 0
  else row ++ List.replicate padLen (if key = "labels" then -100 else 0)

theorem length_padRow (key : String) (padLen : ℕ) (row : List ℤ) :
    (padRow key padLen row).length = row.length + padLen := by
  unfold padRow
  split_ifs <;> simp

theorem prefix_padRow (key : String) (padLen : ℕ) (row : List ℤ) :
    row <+: padRow key padLen row := by
  unfold padRow
  split_ifs <;> exact List.prefix_append _ _

/-- A tensor padded along its last axis. -/
def RowTensor.pad (key : String) (padLen : ℕ) (t : RowTensor) : RowTensor where
  cols := t.cols + padLen
  rows := t.rows.map (padRow key padLen)
  rows_length := by
    intro row hrow
    obtain ⟨row, hmem, rfl⟩ := List.mem_map.1 hrow
    rw [length_padRow, t.rows_length row hmem]

/-- `v[..., lo:hi]` -/
def RowTensor.slice (lo hi : ℕ) (t : RowTensor) : RowTensor where
  cols := min hi t.cols - lo
  rows := t.rows.map fun row => (row.take hi).drop lo
  rows_length := by
    intro row hrow
    obtain ⟨row, hmem, rfl⟩ := List.mem_map.1 hrow
    rw [List.length_drop, List.length_take, t.rows_length row hmem]

/-- The padding of the fields, but for those that are recomputed. -/
def padField (padLen : ℕ) (key : String) : Field → Field
  | .tensor t =>
    if key = "qkv_format" ∨ key = "seq_lens" ∨ key = "seq_lens_padded" then .tensor t
    else .tensor (t.pad key padLen)
  | .other value => .other value

/-- The slice of a field. -/
def sliceField (lo hi : ℕ) (key : String) : Field → Field
  | .tensor t => if key = "qkv_format" then .tensor t else .tensor (t.slice lo hi)
  | .other value => .other value

/-- What fills the pack lists. -/
def sentinel : ℤ := -1000

/-- The loop over the packs of a row: the actual and the padded lengths on the rank that has the
positions from `lo` to `hi`. -/
def localPacks (lo hi : ℤ) : ℤ → List (ℤ × ℤ) → List (ℤ × ℤ)
  | _, [] => []
  | offset, (rawLen, rawPad) :: packs =>
    if rawLen = sentinel then []
    else
      let packStart := offset
      let packEnd := offset + rawPad
      let interStart := max packStart lo
      let interEnd := min packEnd hi
      if interEnd ≤ interStart then localPacks lo hi packEnd packs
      else
        let actualStart := max packStart lo
        let actualEnd := min (packStart + rawLen) hi
        let localActual := max (actualEnd - actualStart) 0
        let localPad := interEnd - interStart
        if 0 < localActual ∨ 0 < localPad then
          (localActual, localPad) :: localPacks lo hi packEnd packs
        else localPacks lo hi packEnd packs

/-- The longest of some rows. -/
def maxLength (rows : List (List ℤ)) : ℕ := rows.foldr (fun row n => max row.length n) 0

theorem length_le_maxLength {rows : List (List ℤ)} {row : List ℤ} (h : row ∈ rows) :
    row.length ≤ maxLength rows := by
  unfold maxLength
  induction rows with
  | nil => cases h
  | cons row' rows ih =>
    rw [List.foldr_cons]
    rcases List.mem_cons.1 h with rfl | h
    · exact Nat.le_max_left _ _
    · exact (ih h).trans (Nat.le_max_right _ _)

/-- The pack lists of all rows, filled up with the sentinel. -/
def fillRows (rows : List (List ℤ)) : RowTensor where
  cols := if maxLength rows = 0 then 1 else maxLength rows
  rows := rows.map fun row =>
    row ++ List.replicate ((if maxLength rows = 0 then 1 else maxLength rows) - row.length) sentinel
  rows_length := by
    intro row hrow
    obtain ⟨row, hmem, rfl⟩ := List.mem_map.1 hrow
    have hle := length_le_maxLength hmem
    rw [List.length_append, List.length_replicate]
    split_ifs <;> omega

/-- `_shard_seq_lens_for_cp` -/
def shardSeqLensForCp (seqLens seqLensPadded : RowTensor) (cpRank chunk : ℕ) :
    RowTensor × RowTensor :=
  let lo := cpRank * chunk
  let hi := lo + chunk
  let locals := (seqLens.rows.zip seqLensPadded.rows).map fun lens =>
    localPacks lo hi 0 (lens.1.zip lens.2)
  (fillRows (locals.map fun packs => packs.map Prod.fst),
    fillRows (locals.map fun packs => packs.map Prod.snd))

/-- `pad_len` -/
def padLen (seqLen cpSize : ℕ) : ℕ := (-(seqLen : ℤ) % (cpSize * 2 : ℕ)).toNat

/-- `chunk` -/
def chunkLen (seqLen cpSize : ℕ) : ℕ := (seqLen + padLen seqLen cpSize) / cpSize

/-- `shard_batch_for_cp` -/
def shardBatchForCp (batch : Batch) (cpSize cpRank : ℕ) : Option Batch :=
  if cpSize ≤ 1 then some batch
  else match batch.lookup "input_ids" with
  | some (.tensor inputIds) =>
    let seqLen := inputIds.cols
    let chunk := chunkLen seqLen cpSize
    let lo := cpRank * chunk
    let hi := lo + chunk
    let padded := if 0 < padLen seqLen cpSize then
        batch.map fun entry => (entry.1, padField (padLen seqLen cpSize) entry.1 entry.2)
      else batch
    let kept := padded.filter fun entry => entry.1 ≠ "seq_lens" ∧ entry.1 ≠ "seq_lens_padded"
    let out := kept.map fun entry => (entry.1, sliceField lo hi entry.1 entry.2)
    match batch.lookup "seq_lens", batch.lookup "seq_lens_padded" with
    | some (.tensor seqLens), some (.tensor seqLensPadded) =>
      let lens := shardSeqLensForCp seqLens seqLensPadded cpRank chunk
      some (out ++ [("seq_lens", .tensor lens.1), ("seq_lens_padded", .tensor lens.2)])
    | some _, some _ => none
    | _, _ => some out
  | _ => none

/-! ### The packs cut at the boundaries of a rank -/

/-- A pack: its real tokens, and its tokens with the padding. -/
structure Pack where
  length : ℕ
  padded : ℕ
  le : length ≤ padded

/-- The positions that two intervals share. -/
def overlap (start stop lo hi : ℕ) : ℕ := (Finset.Ico start stop ∩ Finset.Ico lo hi).card

/-- The packs from a position on, between two boundaries: the real positions of each, and all. -/
def cutPacks (lo hi : ℕ) : ℕ → List Pack → List (ℕ × ℕ)
  | _, [] => []
  | offset, pack :: packs =>
    (overlap offset (offset + pack.length) lo hi, overlap offset (offset + pack.padded) lo hi) ::
      cutPacks lo hi (offset + pack.padded) packs

/-- The packs that have a position between two boundaries. -/
def cutList (lo hi : ℕ) (packs : List Pack) : List (ℕ × ℕ) :=
  (cutPacks lo hi 0 packs).filter fun cut => 0 < cut.2

theorem overlap_eq (start stop lo hi : ℕ) :
    overlap start stop lo hi = min stop hi - max start lo := by
  rw [overlap, Finset.Ico_inter_Ico, Nat.card_Ico]

/-- Over consecutive intervals the shared positions add up. -/
theorem sum_overlap {start stop chunk n : ℕ} (hle : start ≤ stop) (hn : stop ≤ n * chunk) :
    ((List.range n).map fun r => overlap start stop (r * chunk) (r * chunk + chunk)).sum =
      stop - start := by
  have hrun : ∀ k, ((List.range k).map fun r =>
      overlap start stop (r * chunk) (r * chunk + chunk)).sum = min stop (k * chunk) - start := by
    intro k
    induction k with
    | zero => simp
    | succ k ih =>
      have hnext : (k + 1) * chunk = k * chunk + chunk := Nat.succ_mul k chunk
      rw [List.range_succ, List.map_append, List.sum_append, ih, List.map_singleton,
        List.sum_singleton, overlap_eq, hnext]
      omega
  rw [hrun, Nat.min_eq_left hn]

theorem cutPacks_getElem? (lo hi offset : ℕ) (packs : List Pack) (i : ℕ) :
    (cutPacks lo hi offset packs)[i]? = packs[i]?.map fun pack =>
      let start := offset + ((packs.take i).map Pack.padded).sum
      (overlap start (start + pack.length) lo hi, overlap start (start + pack.padded) lo hi) := by
  induction packs generalizing offset i with
  | nil => rfl
  | cons pack packs ih =>
    cases i with
    | zero => rfl
    | succ i =>
      rw [cutPacks, List.getElem?_cons_succ, List.getElem?_cons_succ, ih]
      simp only [List.take_succ_cons, List.map_cons, List.sum_cons, Nat.add_assoc]

/-- What the loop finds in a row are the packs cut at the boundaries. -/
theorem localPacks_eq (lo hi offset k k' : ℕ) (packs : List Pack) :
    localPacks lo hi offset
      ((packs.map (fun pack => (pack.length : ℤ)) ++ List.replicate k sentinel).zip
        (packs.map (fun pack => (pack.padded : ℤ)) ++ List.replicate k' sentinel)) =
      ((cutPacks lo hi offset packs).filter fun cut => 0 < cut.2).map
        fun cut => ((cut.1 : ℤ), (cut.2 : ℤ)) := by
  induction packs generalizing offset with
  | nil =>
    cases k with
    | zero => rfl
    | succ k =>
      cases k' with
      | zero => rfl
      | succ k' => exact if_pos rfl
  | cons pack packs ih =>
    have hreal : (pack.length : ℤ) ≠ sentinel := by
      unfold sentinel
      omega
    have hrest := ih (offset + pack.padded)
    rw [Int.natCast_add] at hrest
    have hlen := overlap_eq offset (offset + pack.length) lo hi
    have hpad := overlap_eq offset (offset + pack.padded) lo hi
    have hle := pack.le
    rw [List.map_cons, List.map_cons, List.cons_append, List.cons_append, List.zip_cons_cons,
      localPacks, if_neg hreal, cutPacks]
    simp only
    split_ifs with hempty hkeep
    · -- no position of the pack lies between the boundaries
      rw [hrest, List.filter_cons_of_neg]
      simp only [decide_eq_true_eq]
      omega
    · rw [hrest, List.filter_cons_of_pos, List.map_cons]
      · congr 1
        refine Prod.ext ?_ ?_
        · simp only
          omega
        · simp only
          omega
      · simp only [decide_eq_true_eq]
        omega
    · omega

/-! ### The batch -/

/-- A batch of packed rows: the packs of every row stand in its pack lists. -/
structure PackedBatch where
  batch : Batch
  packs : List (List Pack)
  inputIds : RowTensor
  seqLens : RowTensor
  seqLensPadded : RowTensor
  lookup_inputIds : batch.lookup "input_ids" = some (.tensor inputIds)
  lookup_seqLens : batch.lookup "seq_lens" = some (.tensor seqLens)
  lookup_seqLensPadded : batch.lookup "seq_lens_padded" = some (.tensor seqLensPadded)
  rows_seqLens : seqLens.rows = packs.map fun row =>
    row.map (fun pack => (pack.length : ℤ)) ++
      List.replicate (seqLens.cols - row.length) sentinel
  rows_seqLensPadded : seqLensPadded.rows = packs.map fun row =>
    row.map (fun pack => (pack.padded : ℤ)) ++
      List.replicate (seqLensPadded.cols - row.length) sentinel

namespace PackedBatch

/-- The packs of a row do not go beyond the padded sequence length. -/
def Fits (b : PackedBatch) (cpSize : ℕ) : Prop :=
  ∀ row ∈ b.packs, (row.map Pack.padded).sum ≤ b.inputIds.cols + padLen b.inputIds.cols cpSize

/-- A field that is sliced. -/
def IsTokenField (key : String) : Prop :=
  key ≠ "qkv_format" ∧ key ≠ "seq_lens" ∧ key ≠ "seq_lens_padded"

end PackedBatch

/-- A row of a field. -/
def rowOf (batch : Batch) (key : String) (i : ℕ) : List ℤ :=
  match batch.lookup key with
  | some (.tensor t) => t.rows.getD i []
  | _ => []

/-- A row of a field with its padding; a single rank pads nothing. -/
def paddedRow (seqLen cpSize : ℕ) (key : String) (row : List ℤ) : List ℤ :=
  if cpSize ≤ 1 then row else padRow key (padLen seqLen cpSize) row

section Lookup

theorem lookup_map_filter (batch : Batch) (p : String → Bool) (g : String → Field → Field)
    (key : String) : ((batch.filter fun entry => p entry.1).map
      fun entry => (entry.1, g entry.1 entry.2)).lookup key =
      if p key then (batch.lookup key).map (g key) else none := by
  rw [Dict.lookup_map, Dict.lookup_filter]
  split_ifs <;> rfl

end Lookup

section Correct

variable {b : PackedBatch} {cpSize seqLen r : ℕ} {key : String} {t : RowTensor}

theorem dvd_add_padLen (hcp : 0 < cpSize) : cpSize ∣ seqLen + padLen seqLen cpSize := by
  have hpos : ((cpSize * 2 : ℕ) : ℤ) ≠ 0 := by omega
  have hnonneg := Int.emod_nonneg (-(seqLen : ℤ)) hpos
  have hdiv := Int.emod_add_mul_ediv (-(seqLen : ℤ)) (cpSize * 2 : ℕ)
  have hdvd : ((cpSize * 2 : ℕ) : ℤ) ∣ ((seqLen + padLen seqLen cpSize : ℕ) : ℤ) := by
    refine ⟨-(-(seqLen : ℤ) / (cpSize * 2 : ℕ)), ?_⟩
    rw [padLen, Int.natCast_add, Int.toNat_of_nonneg hnonneg, Int.mul_neg]
    omega
  exact (Nat.dvd_mul_right cpSize 2).trans (Int.natCast_dvd_natCast.1 hdvd)

/-- The slices cover the padded sequence. -/
theorem cpSize_mul_chunkLen (hcp : 0 < cpSize) :
    cpSize * chunkLen seqLen cpSize = seqLen + padLen seqLen cpSize :=
  Nat.mul_div_cancel' (dvd_add_padLen hcp)

theorem length_paddedRow {row : List ℤ} (hcp : 1 < cpSize) (hrow : row.length = seqLen) :
    (paddedRow seqLen cpSize key row).length = seqLen + padLen seqLen cpSize := by
  rw [paddedRow, if_neg (by omega), length_padRow, hrow]

/-- The padding stands behind the row. -/
theorem prefix_paddedRow (seqLen cpSize : ℕ) (key : String) (row : List ℤ) :
    row <+: paddedRow seqLen cpSize key row := by
  unfold paddedRow
  split_ifs
  · exact List.prefix_refl row
  · exact prefix_padRow _ _ row

/-- What a rank returns when there are several. -/
theorem shardBatchForCp_eq (b : PackedBatch) (hcp : 1 < cpSize) (r : ℕ) :
    ∃ out : Batch, shardBatchForCp b.batch cpSize r = some (out ++
        [("seq_lens", .tensor (shardSeqLensForCp b.seqLens b.seqLensPadded r
            (chunkLen b.inputIds.cols cpSize)).1),
          ("seq_lens_padded", .tensor (shardSeqLensForCp b.seqLens b.seqLensPadded r
            (chunkLen b.inputIds.cols cpSize)).2)]) ∧
      out.lookup "seq_lens" = none ∧ out.lookup "seq_lens_padded" = none ∧
      ∀ key t, b.batch.lookup key = some (.tensor t) → PackedBatch.IsTokenField key →
        ∃ t', out.lookup key = some (.tensor t') ∧ t'.rows = t.rows.map fun row =>
          ((paddedRow b.inputIds.cols cpSize key row).take
            (r * chunkLen b.inputIds.cols cpSize + chunkLen b.inputIds.cols cpSize)).drop
              (r * chunkLen b.inputIds.cols cpSize) := by
  unfold shardBatchForCp
  rw [if_neg (Nat.not_le_of_lt hcp), b.lookup_inputIds, b.lookup_seqLens, b.lookup_seqLensPadded]
  refine ⟨_, rfl, ?_, ?_, fun key t ht hkey => ?_⟩
  · rw [lookup_map_filter _ fun key => decide (key ≠ "seq_lens" ∧ key ≠ "seq_lens_padded")]
    simp
  · rw [lookup_map_filter _ fun key => decide (key ≠ "seq_lens" ∧ key ≠ "seq_lens_padded")]
    simp
  · have hkeep : (decide (key ≠ "seq_lens" ∧ key ≠ "seq_lens_padded")) = true :=
      decide_eq_true hkey.2
    rw [lookup_map_filter _ fun key => decide (key ≠ "seq_lens" ∧ key ≠ "seq_lens_padded"),
      if_pos hkeep]
    split_ifs with hpad
    · rw [Dict.lookup_map (padField _), ht]
      have hnot : ¬ (key = "qkv_format" ∨ key = "seq_lens" ∨ key = "seq_lens_padded") := by
        rintro (h | h | h)
        exacts [hkey.1 h, hkey.2.1 h, hkey.2.2 h]
      refine ⟨(t.pad key (padLen b.inputIds.cols cpSize)).slice
        (r * chunkLen b.inputIds.cols cpSize)
        (r * chunkLen b.inputIds.cols cpSize + chunkLen b.inputIds.cols cpSize), ?_, ?_⟩
      · rw [Option.map_some, padField, if_neg hnot, Option.map_some, sliceField, if_neg hkey.1]
      · simp only [RowTensor.slice, RowTensor.pad, List.map_map, paddedRow,
          if_neg (Nat.not_le_of_lt hcp)]
        rfl
    · rw [ht]
      refine ⟨t.slice (r * chunkLen b.inputIds.cols cpSize)
        (r * chunkLen b.inputIds.cols cpSize + chunkLen b.inputIds.cols cpSize), ?_, ?_⟩
      · rw [Option.map_some, sliceField, if_neg hkey.1]
      · have hzero : padLen b.inputIds.cols cpSize = 0 := Nat.eq_zero_of_not_pos hpad
        simp only [RowTensor.slice, paddedRow, if_neg (Nat.not_le_of_lt hcp), hzero, padRow]
        simp

/-- A row of the pack lists. -/
theorem fillRows_getElem? {locals : List (List (ℤ × ℤ))} {i : ℕ} {local' : List (ℤ × ℤ)}
    (h : locals[i]? = some local') (f : ℤ × ℤ → ℤ) :
    (fillRows (locals.map fun packs => packs.map f)).rows[i]? = some (local'.map f ++
      List.replicate ((if locals.foldr (fun packs n => max packs.length n) 0 = 0 then 1
        else locals.foldr (fun packs n => max packs.length n) 0) - local'.length) sentinel) := by
  have hmax : maxLength (locals.map fun packs => packs.map f) =
      locals.foldr (fun packs n => max packs.length n) 0 := by
    rw [maxLength, List.foldr_map]
    simp only [List.length_map]
  unfold fillRows
  simp only
  rw [List.getElem?_map, List.getElem?_map, h, hmax]
  simp only [Option.map_some, List.length_map]

/-- The pack lists of a rank, row by row. -/
theorem shardSeqLensForCp_rows (b : PackedBatch) (r chunk : ℕ) {i : ℕ} {row : List Pack}
    (hrow : b.packs[i]? = some row) : ∃ k,
      (shardSeqLensForCp b.seqLens b.seqLensPadded r chunk).1.rows[i]? =
        some ((cutList (r * chunk) (r * chunk + chunk) row).map (fun cut => (cut.1 : ℤ)) ++
          List.replicate k sentinel) ∧
      (shardSeqLensForCp b.seqLens b.seqLensPadded r chunk).2.rows[i]? =
        some ((cutList (r * chunk) (r * chunk + chunk) row).map (fun cut => (cut.2 : ℤ)) ++
          List.replicate k sentinel) := by
  have hlocals : ((b.seqLens.rows.zip b.seqLensPadded.rows).map fun lens =>
      localPacks (r * chunk : ℕ) (r * chunk + chunk : ℕ) 0 (lens.1.zip lens.2))[i]? =
        some ((cutList (r * chunk) (r * chunk + chunk) row).map
          fun cut => ((cut.1 : ℤ), (cut.2 : ℤ))) := by
    rw [b.rows_seqLens, b.rows_seqLensPadded, List.zip_map', List.map_map, List.getElem?_map, hrow,
      Option.map_some]
    exact congrArg some (localPacks_eq (r * chunk) (r * chunk + chunk) 0
      (b.seqLens.cols - row.length) (b.seqLensPadded.cols - row.length) row)
  have hfst := fillRows_getElem? hlocals Prod.fst
  have hsnd := fillRows_getElem? hlocals Prod.snd
  have hcuts := fun g : ℤ × ℤ → ℤ => List.map_map (g := g)
    (f := fun cut : ℕ × ℕ => ((cut.1 : ℤ), (cut.2 : ℤ)))
    (l := cutList (r * chunk) (r * chunk + chunk) row)
  rw [hcuts, List.length_map] at hfst hsnd
  exact ⟨_, hfst, hsnd⟩

/-- A pack that has no position on a rank has no real one there either. -/
theorem cut_fst_eq_zero {lo hi offset : ℕ} {packs : List Pack} {cut : ℕ × ℕ}
    (h : cut ∈ cutPacks lo hi offset packs) (hzero : cut.2 = 0) : cut.1 = 0 := by
  obtain ⟨i, hi⟩ := List.getElem?_of_mem h
  rw [cutPacks_getElem?] at hi
  obtain ⟨pack, -, rfl⟩ := Option.map_eq_some_iff.1 hi
  have hle := pack.le
  simp only [overlap_eq] at hzero ⊢
  omega

/-- The real positions of a pack on all ranks are its real tokens. -/
theorem sum_cutPacks {packs : List Pack} {chunk n i : ℕ} {pack : Pack}
    (hfits : (packs.map Pack.padded).sum ≤ n * chunk) (hpack : packs[i]? = some pack) :
    ((List.range n).map fun r =>
      (((cutPacks (r * chunk) (r * chunk + chunk) 0 packs)[i]?).map Prod.fst).getD 0).sum =
      pack.length := by
  have hstop : ((packs.take i).map Pack.padded).sum + pack.padded ≤
      (packs.map Pack.padded).sum := by
    have hdrop : packs.drop i = pack :: packs.drop (i + 1) := by
      obtain ⟨hlt, rfl⟩ := List.getElem?_eq_some_iff.1 hpack
      exact List.drop_eq_getElem_cons hlt
    have hsplit : packs = packs.take i ++ pack :: packs.drop (i + 1) := by
      rw [← hdrop, List.take_append_drop]
    conv_rhs => rw [hsplit]
    rw [List.map_append, List.sum_append, List.map_cons, List.sum_cons]
    omega
  have hle := pack.le
  simp only [cutPacks_getElem?, hpack, Option.map_some, Option.getD_some]
  rw [sum_overlap (Nat.le_add_right _ _) (by omega)]
  omega

/-- What the ranks return: slices that are the padded rows together, and pack lists of the packs
that have a position on the rank, in which no real token is lost. -/
structure ShardsCorrect (b : PackedBatch) (cpSize : ℕ) (shards : ℕ → Batch) : Prop where
  tokens : ∀ key t, b.batch.lookup key = some (.tensor t) → PackedBatch.IsTokenField key →
    t.cols = b.inputIds.cols → ∀ i row, t.rows[i]? = some row →
      (List.range cpSize).flatMap (fun r => rowOf (shards r) key i) =
        paddedRow b.inputIds.cols cpSize key row ∧
      row <+: paddedRow b.inputIds.cols cpSize key row
  lists : ∀ (i : ℕ) (row : List Pack), b.packs[i]? = some row → ∀ r < cpSize,
    let chunk := chunkLen b.inputIds.cols cpSize
    let lens := shardSeqLensForCp b.seqLens b.seqLensPadded r chunk
    let cuts := cutList (r * chunk) (r * chunk + chunk) row
    ∃ k, lens.1.rows[i]? =
        some (cuts.map (fun cut => (cut.1 : ℤ)) ++ List.replicate k sentinel) ∧
      lens.2.rows[i]? =
        some (cuts.map (fun cut => (cut.2 : ℤ)) ++ List.replicate k sentinel)
  real : ∀ row ∈ b.packs, ∀ (i : ℕ) (pack : Pack), row[i]? = some pack →
    let chunk := chunkLen b.inputIds.cols cpSize
    ((List.range cpSize).map fun r =>
      (((cutPacks (r * chunk) (r * chunk + chunk) 0 row)[i]?).map Prod.fst).getD 0).sum =
      pack.length
  dropped : ∀ row ∈ b.packs, ∀ r < cpSize,
    let chunk := chunkLen b.inputIds.cols cpSize
    ∀ cut ∈ cutPacks (r * chunk) (r * chunk + chunk) 0 row, cut.2 = 0 → cut.1 = 0
  returned : 1 < cpSize → ∀ r < cpSize,
    let lens := shardSeqLensForCp b.seqLens b.seqLensPadded r (chunkLen b.inputIds.cols cpSize)
    (shards r).lookup "seq_lens" = some (.tensor lens.1) ∧
      (shards r).lookup "seq_lens_padded" = some (.tensor lens.2)

/-- The pack lists do not depend on what the ranks return. -/
theorem ShardsCorrect.of_tokens {shards : ℕ → Batch} (hcp : 0 < cpSize) (hfits : b.Fits cpSize)
    (tokens : ∀ key t, b.batch.lookup key = some (.tensor t) → PackedBatch.IsTokenField key →
      t.cols = b.inputIds.cols → ∀ i row, t.rows[i]? = some row →
        (List.range cpSize).flatMap (fun r => rowOf (shards r) key i) =
          paddedRow b.inputIds.cols cpSize key row)
    (returned : 1 < cpSize → ∀ r < cpSize,
      let lens := shardSeqLensForCp b.seqLens b.seqLensPadded r (chunkLen b.inputIds.cols cpSize)
      (shards r).lookup "seq_lens" = some (.tensor lens.1) ∧
        (shards r).lookup "seq_lens_padded" = some (.tensor lens.2)) :
    ShardsCorrect b cpSize shards where
  tokens key t ht hkey hcols i row hrow :=
    ⟨tokens key t ht hkey hcols i row hrow, prefix_paddedRow _ _ _ row⟩
  lists _ _ hrow r _ := shardSeqLensForCp_rows b r _ hrow
  real _ hrow _ _ hpack := sum_cutPacks ((hfits _ hrow).trans (cpSize_mul_chunkLen hcp).ge) hpack
  dropped _ _ _ _ _ hcut hzero := cut_fst_eq_zero hcut hzero
  returned := returned

/-- Every rank returns a shard, and together the shards are correct. -/
theorem shardBatchForCp_correct (b : PackedBatch) {cpSize : ℕ} (hcp : 0 < cpSize)
    (hfits : b.Fits cpSize) :
    ∃ shards : ℕ → Batch, (∀ r < cpSize, shardBatchForCp b.batch cpSize r = some (shards r)) ∧
      ShardsCorrect b cpSize shards := by
  rcases Nat.lt_or_ge 1 cpSize with hmany | hone
  · choose out hout hlens hpadded htokens using fun r => shardBatchForCp_eq b hmany r
    refine ⟨_, fun r _ => hout r, .of_tokens hcp hfits
      (fun key t ht hkey hcols i row hrow => ?_) fun _ r _ => ⟨?_, ?_⟩⟩
    · have hlength : row.length = b.inputIds.cols :=
        (t.rows_length row (List.mem_of_getElem? hrow)).trans hcols
      have hslice : ∀ r, rowOf (out r ++ [("seq_lens", .tensor (shardSeqLensForCp b.seqLens
          b.seqLensPadded r (chunkLen b.inputIds.cols cpSize)).1),
          ("seq_lens_padded", .tensor (shardSeqLensForCp b.seqLens b.seqLensPadded r
            (chunkLen b.inputIds.cols cpSize)).2)]) key i =
          ((paddedRow b.inputIds.cols cpSize key row).take
            ((r + 1) * chunkLen b.inputIds.cols cpSize)).drop
              (r * chunkLen b.inputIds.cols cpSize) := by
        intro r
        obtain ⟨t', hlookup, hrows⟩ := htokens r key t ht hkey
        rw [rowOf, List.lookup_append, hlookup, Option.some_or]
        simp only
        rw [hrows, List.getD_eq_getElem?_getD, List.getElem?_map, hrow, Nat.succ_mul]
        rfl
      simp only [hslice]
      rw [List.flatMap_def, Shares.flatten_slices, cpSize_mul_chunkLen hcp,
        ← length_paddedRow hmany hlength, List.take_length]
    · rw [List.lookup_append, hlens]
      rfl
    · rw [List.lookup_append, hpadded]
      rfl
  · obtain rfl : cpSize = 1 := Nat.le_antisymm hone hcp
    refine ⟨fun _ => b.batch, fun r _ => rfl, .of_tokens hcp hfits
      (fun key t ht _ _ i row hrow => ?_) fun h => ?_⟩
    · rw [List.range_one, List.flatMap_singleton, rowOf, ht]
      simp only
      rw [List.getD_eq_getElem?_getD, hrow]
      rfl
    · exact absurd h (Nat.lt_irrefl 1)

/-- A row of two packs on two ranks. -/
theorem shardBatchForCp_correct_two : ∃ b : PackedBatch, b.Fits 2 ∧
    (∃ row ∈ b.packs, row.length = 2) ∧ ∃ shards : ℕ → Batch,
      (∀ r < 2, shardBatchForCp b.batch 2 r = some (shards r)) ∧ ShardsCorrect b 2 shards := by
  let ids : RowTensor := ⟨6, [[1, 2, 3, 0, 4, 5]], by decide⟩
  let lens : RowTensor := ⟨2, [[3, 2]], by decide⟩
  let padded : RowTensor := ⟨2, [[4, 2]], by decide⟩
  let b : PackedBatch :=
    { batch := [("input_ids", .tensor ids), ("seq_lens", .tensor lens),
        ("seq_lens_padded", .tensor padded)]
      packs := [[⟨3, 4, by decide⟩, ⟨2, 2, by decide⟩]]
      inputIds := ids
      seqLens := lens
      seqLensPadded := padded
      lookup_inputIds := rfl
      lookup_seqLens := rfl
      lookup_seqLensPadded := rfl
      rows_seqLens := rfl
      rows_seqLensPadded := rfl }
  have hfits : b.Fits 2 := by
    intro row hrow
    obtain rfl := List.mem_singleton.1 hrow
    decide
  exact ⟨b, hfits, ⟨_, List.mem_singleton_self _, rfl⟩,
    shardBatchForCp_correct b (by decide) hfits⟩

end Correct

end HyperParallel.Data.CpBatch

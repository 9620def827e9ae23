import HyperParallel.Lib.ExceptList
import HyperParallel.Lib.Lines
import HyperParallel.Lib.Shares

/-!
# Partitioned preparation of a dataset

`data/tools/offline_preparation.py` and the builder of `data/tools/io.py`, without packing.

* `partitionInputData`: `_partition_input_data` with `_write_input_partitions`;
* `processJsonFile`, `mergePartitionOutputs`: a partition encoded, and the outputs merged;
* `partitionsCorrect_iff`: the partitions are as meant exactly when no line without a newline is
  followed by another one of its partition, and no compressed file is handed on as it is.
-/

open Lines Shares

namespace HyperParallel.Data

/-! ### Partitions -/

/-- The arguments that the partitions depend on. -/
structure PartitionArgs where
  partitions : ℕ
  keepSequentialSamples : Bool
  partitions_pos : 0 < partitions

/-- A JSONL file: whether its name ends in `.gz`, when it is compressed, and its text. -/
structure JsonlFile where
  gz : Bool
  text : List Char
  deriving DecidableEq, Repr

/-- `_count_jsonl_lines` -/
def countJsonlLines (file : JsonlFile) : ℕ := (readLines file.text).length

/-- The partition files, `partition_index` and `line_count` of `_write_input_partitions`. -/
structure WriteState where
  outputs : List (List Char)
  partitionIndex : ℕ
  lineCount : ℕ

/-- One line written. -/
def writeLine (args : PartitionArgs) (partitionSize : ℕ) (state : WriteState) (line : List Char) :
    WriteState :=
  let outputs := state.outputs.modify state.partitionIndex (· ++ line)
  if args.keepSequentialSamples then
    let lineCount := state.lineCount + 1
    if lineCount % partitionSize = 0 ∧ state.partitionIndex < args.partitions - 1 then
      ⟨outputs, state.partitionIndex + 1, lineCount⟩
    else ⟨outputs, state.partitionIndex, lineCount⟩
  else ⟨outputs, (state.partitionIndex + 1) % args.partitions, state.lineCount⟩

/-- `_write_input_partitions` -/
def writeInputPartitions (args : PartitionArgs) (inputFiles : List JsonlFile)
    (partitionSize : ℕ) : List (List Char) :=
  (inputFiles.foldl
    (fun state file => (readLines file.text).foldl (writeLine args partitionSize) state)
    ⟨List.replicate args.partitions [], 0, 0⟩).outputs

/-- `_partition_input_data` when no partition files are reused: the partitions. A single file that is
not split is its own partition, under its own name; the names of the others end in `.jsonl`. -/
def partitionInputData (args : PartitionArgs) (inputFiles : List JsonlFile) :
    Except String (List JsonlFile) :=
  match inputFiles with
  | [file] =>
    if args.partitions = 1 then .ok [file] else writePartitions [file]
  | files => writePartitions files
where
  /-- The sizes checked and the partitions written. -/
  writePartitions (files : List JsonlFile) : Except String (List JsonlFile) :=
    let totalSampleCount := (files.map countJsonlLines).sum
    if args.keepSequentialSamples then
      if totalSampleCount = 0 then .error "Input JSON/JSONL files must contain at least one record"
      else .ok ((writeInputPartitions args files
        ((totalSampleCount + args.partitions - 1) / args.partitions)).map (⟨false, ·⟩))
    else .ok ((writeInputPartitions args files 1).map (⟨false, ·⟩))

/-! ### Encoded partitions -/

/-- A document: its tokens and the lengths of its sentences. -/
structure Document (τ : Type) where
  tokens : List τ
  lengths : List ℕ
  deriving DecidableEq, Repr

/-- `IndexedDatasetBuilder`, with what it has written to the data file, as tokens. -/
structure IndexedDatasetBuilder (τ : Type) where
  data : List τ
  sequenceLengths : List ℕ
  documentIndices : List ℕ
  deriving DecidableEq, Repr

namespace IndexedDatasetBuilder

variable {τ : Type}

/-- A new builder. -/
def new : IndexedDatasetBuilder τ := ⟨[], [], [0]⟩

/-- `add_document` -/
def addDocument (builder : IndexedDatasetBuilder τ) (document : Document τ) : IndexedDatasetBuilder τ :=
  let sequenceLengths := builder.sequenceLengths ++ document.lengths
  ⟨builder.data ++ document.tokens, sequenceLengths,
    builder.documentIndices ++ [sequenceLengths.length]⟩

/-- `add_index` -/
def addIndex (builder index : IndexedDatasetBuilder τ) : IndexedDatasetBuilder τ :=
  let offset := builder.sequenceLengths.length
  ⟨builder.data ++ index.data, builder.sequenceLengths ++ index.sequenceLengths,
    builder.documentIndices ++ (index.documentIndices.map (offset + ·)).tail⟩

end IndexedDatasetBuilder

section Encode

variable {τ : Type} (encode : List Char → Option (Document τ))

/-- A partition as `_process_encoded_documents` opens it, with `open` whatever its name: the second
byte of a compressed file begins no character. -/
def readPartition (file : JsonlFile) : Except String (List (List Char)) :=
  if file.gz then .error "'utf-8' codec can't decode byte 0x8b in position 1: invalid start byte"
  else .ok (readLines file.text)

/-- `process_json_file` for one of the fields, with the encoder of a line, which may raise. -/
def processJsonFile (file : JsonlFile) : Option (IndexedDatasetBuilder τ) :=
  (readPartition file).toOption.bind fun lines => (lines.mapM encode).map fun documents =>
    documents.foldl IndexedDatasetBuilder.addDocument .new

/-- `_encode_partitions` and `_merge_partition_outputs` -/
def mergePartitionOutputs (partitions : List JsonlFile) : Option (IndexedDatasetBuilder τ) :=
  (partitions.mapM (processJsonFile encode)).map fun indices =>
    indices.foldl IndexedDatasetBuilder.addIndex .new

end Encode

/-! ### Which partition a line goes to -/

section Write

variable {args : PartitionArgs} {size : ℕ}

/-- The partition of the line with a number. -/
def partitionOf (args : PartitionArgs) (size i : ℕ) : ℕ :=
  if args.keepSequentialSamples then min (i / size) (args.partitions - 1) else i % args.partitions

theorem partitionOf_lt (i : ℕ) : partitionOf args size i < args.partitions := by
  have hpos := args.partitions_pos
  unfold partitionOf
  split_ifs
  · omega
  · exact Nat.mod_lt _ hpos

/-- The lines of a partition. -/
def linesOf (args : PartitionArgs) (size : ℕ) (lines : List (List Char)) (p : ℕ) :
    List (List Char) :=
  (share (fun entry : List Char × ℕ => partitionOf args size entry.2) lines.zipIdx p).map Prod.fst

/-- What has been written after some lines. -/
def written (args : PartitionArgs) (size : ℕ) (lines : List (List Char)) : WriteState where
  outputs := (List.range args.partitions).map fun p => (linesOf args size lines p).flatten
  partitionIndex := partitionOf args size lines.length
  lineCount := if args.keepSequentialSamples then lines.length else 0

theorem linesOf_snoc (lines : List (List Char)) (line : List Char) (p : ℕ) :
    linesOf args size (lines ++ [line]) p = linesOf args size lines p ++
      if partitionOf args size lines.length = p then [line] else [] := by
  unfold linesOf share
  rw [List.zipIdx_append, List.filter_append, List.map_append]
  congr 1
  simp only [List.zipIdx_singleton, Nat.zero_add, List.filter_cons, List.filter_nil]
  split_ifs with h <;> simp_all

theorem writeLine_written (lines : List (List Char)) (line : List Char) :
    writeLine args size (written args size lines) line = written args size (lines ++ [line]) := by
  have hpos := args.partitions_pos
  have houtputs : (written args size lines).outputs.modify (partitionOf args size lines.length)
      (· ++ line) = (written args size (lines ++ [line])).outputs := by
    unfold written
    simp only
    apply List.ext_getElem
    · simp
    intro p hp hp'
    rw [List.getElem_modify]
    simp only [List.getElem_map, List.getElem_range, linesOf_snoc, List.flatten_append]
    split_ifs <;> simp
  have hindex : (written args size lines).partitionIndex = partitionOf args size lines.length := rfl
  unfold writeLine
  simp only [hindex, houtputs]
  by_cases hseq : args.keepSequentialSamples = true
  · have hcount : (written args size lines).lineCount = lines.length := if_pos hseq
    have hnext : (lines ++ [line]).length = lines.length + 1 := List.length_append
    rw [if_pos hseq, hcount]
    have hdiv : (lines.length + 1) / size =
        lines.length / size + if size ∣ lines.length + 1 then 1 else 0 := Nat.succ_div
    have hdvd : size ∣ lines.length + 1 ↔ (lines.length + 1) % size = 0 := Nat.dvd_iff_mod_eq_zero
    unfold written partitionOf
    rw [if_pos hseq, if_pos hseq, if_pos hseq, hnext]
    split_ifs with hstep
    · congr 1
      rw [if_pos (hdvd.2 hstep.1)] at hdiv
      rw [hdiv]
      omega
    · congr 1
      rw [hdiv]
      split_ifs with hd
      · have := fun h => hstep ⟨hdvd.1 hd, h⟩
        omega
      · rfl
  · rw [if_neg hseq]
    have hnext : (lines ++ [line]).length = lines.length + 1 := List.length_append
    unfold written partitionOf
    simp only [hseq, hnext, if_false, Bool.false_eq_true]
    congr 1
    exact Nat.mod_add_mod _ _ _

theorem foldl_writeLine (lines before : List (List Char)) :
    lines.foldl (writeLine args size) (written args size before) =
      written args size (before ++ lines) := by
  induction lines generalizing before with
  | nil => rw [List.append_nil]; rfl
  | cons line lines ih =>
    rw [List.foldl_cons, writeLine_written, ih, List.append_assoc]
    rfl

/-- The partitions hold the lines of all files, dealt out by their numbers. -/
theorem writeInputPartitions_eq (files : List JsonlFile) :
    writeInputPartitions args files size = (List.range args.partitions).map fun p =>
      (linesOf args size (files.flatMap fun file => readLines file.text) p).flatten := by
  have hrun : ∀ (files : List JsonlFile) (before : List (List Char)),
      files.foldl (fun state file => (readLines file.text).foldl (writeLine args size) state)
        (written args size before) =
          written args size (before ++ files.flatMap fun file => readLines file.text) := by
    intro files
    induction files with
    | nil => intro before; simp
    | cons file files ih =>
      intro before
      rw [List.foldl_cons, foldl_writeLine, ih, List.flatMap_cons, List.append_assoc]
  have hstart : written args size [] = ⟨List.replicate args.partitions [], 0, 0⟩ := by
    unfold written partitionOf
    congr 1
    · apply List.ext_getElem <;> simp [linesOf, share]
    · simp
    · simp
  rw [writeInputPartitions, ← hstart, hrun, List.nil_append]
  rfl

end Write

/-! ### The lines of all files -/

section Lines

variable {args : PartitionArgs} {files parts : List JsonlFile} {size : ℕ}

/-- The lines of all files. -/
def allLines (files : List JsonlFile) : List (List Char) :=
  files.flatMap fun file => readLines file.text

/-- The lines of a partition in a sequential split. -/
def partitionSize (args : PartitionArgs) (files : List JsonlFile) : ℕ :=
  if args.keepSequentialSamples then
    ((allLines files).length + args.partitions - 1) / args.partitions
  else 1

theorem sum_countJsonlLines (files : List JsonlFile) :
    (files.map countJsonlLines).sum = (allLines files).length := by
  rw [allLines, List.length_flatMap]
  rfl

theorem isLine_of_mem_allLines {line : List Char} (h : line ∈ allLines files) :
    IsLine line ∧ '\r' ∉ line := by
  obtain ⟨file, -, hline⟩ := List.mem_flatMap.1 h
  exact ⟨isLine_of_mem_splitLines hline, return_notMem_of_mem_readLines hline⟩

theorem map_fst_zipIdx_share (lines : List (List Char)) (m : ℕ) :
    (List.range m).flatMap (linesOf args size lines) =
      ((List.range m).flatMap (share (fun entry : List Char × ℕ => partitionOf args size entry.2)
        lines.zipIdx)).map Prod.fst := by
  rw [List.map_flatMap]
  rfl

/-- The partitions together have all lines. -/
theorem flatMap_linesOf_perm (lines : List (List Char)) :
    ((List.range args.partitions).flatMap (linesOf args size lines)).Perm lines := by
  rw [map_fst_zipIdx_share]
  have h := (flatMap_share_perm (l := lines.zipIdx)
    (f := fun entry : List Char × ℕ => partitionOf args size entry.2)
    fun entry _ => partitionOf_lt entry.2).map Prod.fst
  rwa [List.zipIdx_map_fst] at h

/-- A sequential split keeps their order. -/
theorem flatMap_linesOf (hseq : args.keepSequentialSamples = true) (lines : List (List Char)) :
    (List.range args.partitions).flatMap (linesOf args size lines) = lines := by
  have hsorted : lines.zipIdx.Pairwise fun entry entry' =>
      partitionOf args size entry.2 ≤ partitionOf args size entry'.2 := by
    have hindex : (lines.zipIdx.map Prod.snd).Pairwise (· < ·) := by
      rw [List.zipIdx_map_snd]
      exact List.pairwise_lt_range'
    refine (List.pairwise_map.1 hindex).imp fun hlt => ?_
    unfold partitionOf
    rw [if_pos hseq, if_pos hseq]
    have := Nat.div_le_div_right (c := size) (Nat.le_of_lt hlt)
    omega
  rw [map_fst_zipIdx_share, flatMap_share hsorted fun entry _ => partitionOf_lt entry.2,
    List.zipIdx_map_fst]

theorem linesOf_one (hone : args.partitions = 1) (lines : List (List Char)) :
    linesOf args size lines 0 = lines := by
  have hzero : ∀ entry ∈ lines.zipIdx, decide (partitionOf args size entry.2 = 0) = true := by
    intro entry _
    have hlt : partitionOf args size entry.2 < args.partitions := partitionOf_lt entry.2
    simp only [decide_eq_true_eq]
    omega
  rw [linesOf, share, List.filter_eq_self.2 hzero, List.zipIdx_map_fst]

theorem universalNewlines_linesOf (p : ℕ) :
    universalNewlines (linesOf args size (allLines files) p).flatten =
      (linesOf args size (allLines files) p).flatten := by
  refine universalNewlines_of_notMem fun hmem => ?_
  obtain ⟨line, hline, hmem⟩ := List.mem_flatten.1 hmem
  obtain ⟨entry, hentry, rfl⟩ := List.mem_map.1 hline
  have hin : entry.1 ∈ allLines files :=
    List.fst_mem_of_mem_zipIdx (l := allLines files) (mem_share.1 hentry).1
  exact (isLine_of_mem_allLines hin).2 hmem

/-- What is partitioned, when it is, as it is read. -/
theorem partitionInputData_eq (h : partitionInputData args files = .ok parts) :
    parts.map (fun part => universalNewlines part.text) = (List.range args.partitions).map fun p =>
      (linesOf args (partitionSize args files) (allLines files) p).flatten := by
  have hmap : ∀ size, ((writeInputPartitions args files size).map (JsonlFile.mk false)).map
      (fun part => universalNewlines part.text) = (List.range args.partitions).map fun p =>
        (linesOf args size (allLines files) p).flatten := by
    intro size
    rw [writeInputPartitions_eq, List.map_map, List.map_map]
    exact List.map_congr_left fun p _ => universalNewlines_linesOf p
  have hwrite : partitionInputData.writePartitions args files = .ok parts →
      parts.map (fun part => universalNewlines part.text) = (List.range args.partitions).map fun p =>
        (linesOf args (partitionSize args files) (allLines files) p).flatten := by
    intro h
    unfold partitionInputData.writePartitions at h
    simp only [sum_countJsonlLines] at h
    by_cases hseq : args.keepSequentialSamples = true
    · rw [if_pos hseq] at h
      split_ifs at h with hzero
      rw [← Except.ok.inj h, hmap, partitionSize, if_pos hseq]
    · rw [if_neg hseq] at h
      rw [← Except.ok.inj h, hmap, partitionSize, if_neg hseq]
  unfold partitionInputData at h
  split at h
  · rename_i file
    split_ifs at h with hone
    · have hall : allLines [file] = readLines file.text := by
        rw [allLines, List.flatMap_singleton]
      rw [← Except.ok.inj h, hone, List.range_one, List.map_singleton, List.map_singleton,
        linesOf_one hone, hall, readLines, flatten_splitLines]
    · exact hwrite h
  · exact hwrite h

/-- The partitions that are no compressed file. -/
theorem partitionInputData_plain (h : partitionInputData args files = .ok parts) :
    (∀ part ∈ parts, part.gz = false) ↔
      ∀ file, files = [file] → file.gz = true → args.partitions ≠ 1 := by
  have hwrite : partitionInputData.writePartitions args files = .ok parts →
      ∀ part ∈ parts, part.gz = false := by
    intro h
    unfold partitionInputData.writePartitions at h
    simp only at h
    split_ifs at h <;>
    · intro part hpart
      rw [← Except.ok.inj h] at hpart
      obtain ⟨text, -, rfl⟩ := List.mem_map.1 hpart
      rfl
  unfold partitionInputData at h
  split at h
  · rename_i file
    split_ifs at h with hone
    · rw [← Except.ok.inj h, List.forall_mem_singleton]
      constructor
      · rintro hplain _ ⟨⟩ hgz
        rw [hplain] at hgz
        cases hgz
      · intro hfile
        cases hgz : file.gz with
        | false => rfl
        | true => exact absurd hone (hfile file rfl hgz)
    · exact iff_of_true (hwrite h) fun _ _ _ => hone
  · rename_i hne
    exact iff_of_true (hwrite h) fun file hfile => absurd hfile (hne file)

/-! ### Lines kept apart -/

theorem mem_linesOf {lines : List (List Char)} {line : List Char} {p : ℕ} :
    line ∈ linesOf args size lines p ↔
      ∃ i, lines[i]? = some line ∧ partitionOf args size i = p := by
  unfold linesOf
  rw [List.mem_map]
  constructor
  · rintro ⟨⟨line', i⟩, hmem, rfl⟩
    obtain ⟨hmem, hp⟩ := mem_share.1 hmem
    exact ⟨i, List.mem_zipIdx_iff_getElem?.1 hmem, hp⟩
  · rintro ⟨i, hline, hp⟩
    exact ⟨(line, i), mem_share.2 ⟨List.mem_zipIdx_iff_getElem?.2 hline, hp⟩, rfl⟩

/-- Every line of a partition but the last ends in a newline: said by the numbers of the lines. -/
theorem terminated_linesOf_iff (lines : List (List Char)) (p : ℕ) :
    (∀ line ∈ (linesOf args size lines p).dropLast, Terminated line) ↔
      ∀ i j, i < j → j < lines.length → partitionOf args size i = p → partitionOf args size j = p →
        ∀ line, lines[i]? = some line → Terminated line := by
  induction lines using List.reverseRecOn with
  | nil => exact iff_of_true (fun line hline => by cases hline) fun i j _ hj => by cases hj
  | append_singleton lines last ih =>
    have hget : ∀ i < lines.length, (lines ++ [last])[i]? = lines[i]? :=
      fun i hi => List.getElem?_append_left hi
    rw [linesOf_snoc]
    split_ifs with hp
    · rw [List.dropLast_concat]
      constructor
      · intro h i j hij hj hi _ line hline
        rw [List.length_append, List.length_singleton] at hj
        rw [hget i (by omega)] at hline
        exact h line (mem_linesOf.2 ⟨i, hline, hi⟩)
      · intro h line hline
        obtain ⟨i, hline, hi⟩ := mem_linesOf.1 hline
        have hlt := (List.getElem?_eq_some_iff.1 hline).1
        exact h i lines.length hlt (by simp) hi hp line (by rw [hget i hlt]; exact hline)
    · rw [List.append_nil, ih]
      constructor
      · intro h i j hij hj hi hj' line hline
        rw [List.length_append, List.length_singleton] at hj
        have hlast : j ≠ lines.length := fun heq => hp (heq ▸ hj')
        rw [hget i (by omega)] at hline
        exact h i j hij (by omega) hi hj' line hline
      · intro h i j hij hj hi hj' line hline
        refine h i j hij ?_ hi hj' line ?_
        · rw [List.length_append]
          omega
        · rw [hget i (by omega)]
          exact hline

theorem splitLines_linesOf (p : ℕ) : splitLines (linesOf args size (allLines files) p).flatten =
    glue (linesOf args size (allLines files) p) := by
  refine splitLines_flatten fun line hline => ?_
  obtain ⟨i, hi, -⟩ := mem_linesOf.1 hline
  exact (isLine_of_mem_allLines (List.mem_of_getElem? hi)).1

/-- What is read of the partitions is what was written exactly when no line without a newline is
followed by another one of its partition. -/
theorem glue_linesOf_iff : (∀ p < args.partitions,
    glue (linesOf args size (allLines files) p) = linesOf args size (allLines files) p) ↔
      ∀ i j, i < j → j < (allLines files).length →
        partitionOf args size i = partitionOf args size j →
        ∀ line, (allLines files)[i]? = some line → Terminated line := by
  constructor
  · intro h i j hij hj hp line hline
    have hglue := congrArg List.length (h (partitionOf args size j) (partitionOf_lt j))
    exact (terminated_linesOf_iff _ _).1 (length_glue_eq_iff.1 hglue) i j hij hj hp rfl line hline
  · intro h p _
    exact glue_eq_self ((terminated_linesOf_iff _ _).2
      fun i j hij hj hi hj' line hline => h i j hij hj (hi.trans hj'.symm) line hline)

/-- As many lines are read of the partitions as were written only if they are the same. -/
theorem glue_linesOf_of_length (h : ((List.range args.partitions).flatMap fun p =>
    glue (linesOf args size (allLines files) p)).length = (allLines files).length) :
    ∀ p < args.partitions,
      glue (linesOf args size (allLines files) p) = linesOf args size (allLines files) p := by
  by_contra hne
  simp only [not_forall] at hne
  obtain ⟨p, hp, hne⟩ := hne
  have hlt : (glue (linesOf args size (allLines files) p)).length <
      (linesOf args size (allLines files) p).length :=
    Nat.lt_of_le_of_ne (length_glue_le _)
      fun heq => hne (glue_eq_self (length_glue_eq_iff.1 heq))
  have hsum := List.sum_lt_sum (l := List.range args.partitions)
    (fun p => (glue (linesOf args size (allLines files) p)).length)
    (fun p => (linesOf args size (allLines files) p).length) (fun p _ => length_glue_le _)
    ⟨p, List.mem_range.2 hp, hlt⟩
  have hperm : ((List.range args.partitions).flatMap (linesOf args size (allLines files))).Perm
      (allLines files) := flatMap_linesOf_perm _
  have hall := hperm.length_eq
  rw [List.length_flatMap] at h hall
  omega

end Lines

/-! ### Merged outputs -/

section Merge

variable {τ : Type} {encode : List Char → Option (Document τ)}

theorem addIndex_addDocument (builder index : IndexedDatasetBuilder τ) (document : Document τ)
    (h : index.documentIndices ≠ []) : builder.addIndex (index.addDocument document) =
      (builder.addIndex index).addDocument document := by
  obtain ⟨first, rest, hcons⟩ := List.exists_cons_of_ne_nil h
  simp [IndexedDatasetBuilder.addIndex, IndexedDatasetBuilder.addDocument, hcons]

/-- An index added is its documents added. -/
theorem addIndex_foldl (builder : IndexedDatasetBuilder τ) (documents : List (Document τ)) :
    builder.addIndex (documents.foldl .addDocument .new) =
      documents.foldl .addDocument builder := by
  have hne : ∀ documents : List (Document τ),
      (documents.foldl IndexedDatasetBuilder.addDocument .new).documentIndices ≠ [] := by
    intro documents
    cases documents using List.reverseRecOn with
    | nil => exact List.cons_ne_nil _ _
    | append_singleton documents document =>
      rw [List.foldl_append, List.foldl_cons, List.foldl_nil, IndexedDatasetBuilder.addDocument]
      simp
  induction documents using List.reverseRecOn with
  | nil => simp [IndexedDatasetBuilder.addIndex, IndexedDatasetBuilder.new]
  | append_singleton documents document ih =>
    rw [List.foldl_append, List.foldl_append, List.foldl_cons, List.foldl_nil, List.foldl_cons,
      List.foldl_nil, addIndex_addDocument _ _ _ (hne documents), ih]

theorem readPartition_of_plain {file : JsonlFile} (h : file.gz = false) :
    readPartition file = .ok (readLines file.text) := by
  rw [readPartition, if_neg (by rw [h]; decide)]

/-- The merged output holds the documents of all lines that are read of the partitions. -/
theorem mergePartitionOutputs_eq {partitions : List JsonlFile}
    (hplain : ∀ part ∈ partitions, part.gz = false) : mergePartitionOutputs encode partitions =
      ((partitions.flatMap fun part => readLines part.text).mapM encode).map
        fun documents => documents.foldl IndexedDatasetBuilder.addDocument .new := by
  have hrun : ∀ builder : IndexedDatasetBuilder τ,
      (partitions.mapM (processJsonFile encode)).map
          (·.foldl IndexedDatasetBuilder.addIndex builder) =
        ((partitions.flatMap fun part => readLines part.text).mapM encode).map
          (·.foldl IndexedDatasetBuilder.addDocument builder) := by
    induction partitions with
    | nil => exact fun builder => rfl
    | cons file partitions ih =>
      intro builder
      rw [List.forall_mem_cons] at hplain
      rw [List.mapM_cons, List.flatMap_cons, List.mapM_append, processJsonFile,
        readPartition_of_plain hplain.1]
      simp only [Except.toOption, Option.bind_some]
      cases (readLines file.text).mapM encode with
      | none => rfl
      | some documents =>
        have hrest := ih hplain.2 (documents.foldl IndexedDatasetBuilder.addDocument builder)
        cases hindices : partitions.mapM (processJsonFile encode) <;>
          cases hdocs : (partitions.flatMap fun part => readLines part.text).mapM encode <;>
          simp_all [addIndex_foldl]
  exact hrun .new

end Merge

/-! ### Records -/

section Records

variable {args : PartitionArgs} {files parts : List JsonlFile}

/-- The records of a file. -/
def recordsOf (file : JsonlFile) : List (List Char) := (readLines file.text).map record

/-- What is read of the partitions, one after the other. -/
def readRecords (parts : List JsonlFile) : Except String (List (List Char)) :=
  (parts.mapM readPartition).map fun lines => lines.flatten.map record

/-- The arguments of a run with a single partition. -/
def PartitionArgs.single (args : PartitionArgs) : PartitionArgs :=
  { args with partitions := 1, partitions_pos := Nat.one_pos }

/-- The output of a run with a single partition, which is not merged. -/
def singleOutput {τ : Type} (args : PartitionArgs) (encode : List Char → Option (Document τ))
    (files : List JsonlFile) : Option (IndexedDatasetBuilder τ) :=
  match partitionInputData args.single files with
  | .ok partitions => partitions.head?.bind (processJsonFile encode)
  | .error _ => none

/-- What the partitions are meant to be: they have every record of the files once, a sequential
split in their order, and its merged outputs are the output of a single partition, for every
encoder. -/
structure PartitionsCorrect (args : PartitionArgs) (files parts : List JsonlFile) : Prop where
  records : ∃ read, readRecords parts = .ok read ∧ read.Perm (files.flatMap recordsOf)
  ordered : args.keepSequentialSamples = true → readRecords parts = .ok (files.flatMap recordsOf)
  merged : args.keepSequentialSamples = true →
    ∀ {τ : Type} (encode : List Char → Option (Document τ)),
      mergePartitionOutputs encode parts = singleOutput args encode files

/-- No line without a newline is followed by another line, in a sequential split, or by another line
of its partition. -/
def KeptApart (args : PartitionArgs) (files : List JsonlFile) : Prop :=
  ∀ i j, i < j → j < (allLines files).length →
    (args.keepSequentialSamples = false → i % args.partitions = j % args.partitions) →
    ∀ line, (allLines files)[i]? = some line → Terminated line

/-- A single compressed file is split, and not in sequence: unsplit, as a run with a single partition
leaves it, it is not decompressed. -/
def Decompressed (args : PartitionArgs) (files : List JsonlFile) : Prop :=
  ∀ file, files = [file] → file.gz = true →
    args.partitions ≠ 1 ∧ args.keepSequentialSamples = false

theorem flatMap_recordsOf (files : List JsonlFile) :
    files.flatMap recordsOf = (allLines files).map record := by
  rw [allLines, List.map_flatMap]
  rfl

theorem flatMap_readLines (h : partitionInputData args files = .ok parts) :
    (parts.flatMap fun part => readLines part.text) = (List.range args.partitions).flatMap fun p =>
      glue (linesOf args (partitionSize args files) (allLines files) p) := by
  have hsplit : (parts.flatMap fun part => readLines part.text) =
      (parts.map fun part => universalNewlines part.text).flatMap splitLines := by
    rw [List.flatMap_map]
    rfl
  rw [hsplit, partitionInputData_eq h, List.flatMap_map]
  exact List.flatMap_congr fun p _ => splitLines_linesOf p

/-- The partitions can be read when none is a compressed file. -/
theorem readRecords_eq_ok_iff {read : List (List Char)} : readRecords parts = .ok read ↔
    (∀ part ∈ parts, part.gz = false) ∧
      read = (parts.flatMap fun part => readLines part.text).map record := by
  have hread : ∀ lines, parts.mapM readPartition = .ok lines ↔
      (∀ part ∈ parts, part.gz = false) ∧ lines = parts.map fun part => readLines part.text := by
    induction parts with
    | nil =>
      intro lines
      rw [and_iff_right fun _ hmem => absurd hmem List.not_mem_nil]
      exact ⟨fun h => (Except.ok.inj h).symm, fun h => h ▸ rfl⟩
    | cons part parts ih =>
      intro lines
      rw [List.mapM_cons, List.forall_mem_cons, ExceptList.bind_eq_ok]
      constructor
      · rintro ⟨first, hfirst, hrest⟩
        obtain ⟨rest, hrest, hlines⟩ := ExceptList.bind_eq_ok.1 hrest
        obtain ⟨hplain, rfl⟩ := (ih rest).1 hrest
        unfold readPartition at hfirst
        split_ifs at hfirst with hgz
        rw [← Except.ok.inj hlines, ← Except.ok.inj hfirst]
        exact ⟨⟨by simpa using hgz, hplain⟩, rfl⟩
      · rintro ⟨⟨hgz, hplain⟩, rfl⟩
        exact ⟨_, readPartition_of_plain hgz,
          ExceptList.bind_eq_ok.2 ⟨_, (ih _).2 ⟨hplain, rfl⟩, rfl⟩⟩
  unfold readRecords
  cases hlines : parts.mapM readPartition with
  | error e =>
    refine iff_of_false (fun h => by cases h) fun h => ?_
    rw [(hread _).2 ⟨h.1, rfl⟩] at hlines
    cases hlines
  | ok lines =>
    obtain ⟨hplain, rfl⟩ := (hread lines).1 hlines
    rw [and_iff_right hplain, List.flatMap_def]
    exact ⟨fun h => (Except.ok.inj h).symm, fun h => h ▸ rfl⟩

/-- When the partitions are written. -/
theorem partitionInputData_ok_iff : (∃ parts, partitionInputData args files = .ok parts) ↔
    (args.keepSequentialSamples = true → allLines files = [] →
      files.length = 1 ∧ args.partitions = 1) := by
  have hwrite : ∀ files, (∃ parts, partitionInputData.writePartitions args files = .ok parts) ↔
      (args.keepSequentialSamples = true → allLines files ≠ []) := by
    intro files
    unfold partitionInputData.writePartitions
    simp only [sum_countJsonlLines, List.length_eq_zero_iff]
    split_ifs with hseq hnil <;> simp_all
  unfold partitionInputData
  split
  · rename_i file
    split_ifs with hone
    · exact iff_of_true ⟨_, rfl⟩ fun _ _ => ⟨rfl, hone⟩
    · rw [hwrite]
      exact forall_congr' fun _ => forall_congr' fun _ => by simp [hone]
  · rename_i hne
    rw [hwrite]
    refine forall_congr' fun _ => forall_congr' fun _ => ?_
    refine (iff_false_intro fun h => ?_).symm
    obtain ⟨file, rfl⟩ := List.length_eq_one_iff.1 h.1
    exact hne file rfl

/-- A single partition is the files one after the other, when these are decompressed. -/
theorem singleOutput_eq {τ : Type} (encode : List Char → Option (Document τ))
    (h : partitionInputData args files = .ok parts)
    (hplain : ∀ file, files = [file] → file.gz = false) : singleOutput args encode files =
      ((glue (allLines files)).mapM encode).map
        fun documents => documents.foldl IndexedDatasetBuilder.addDocument .new := by
  have hexists : ∃ single, partitionInputData args.single files = .ok single :=
    partitionInputData_ok_iff.2 fun hseq hnil =>
      ⟨(partitionInputData_ok_iff.1 ⟨parts, h⟩ hseq hnil).1, rfl⟩
  obtain ⟨single, hsingle⟩ := hexists
  have hone : args.single.partitions = 1 := rfl
  have hgz := (partitionInputData_plain hsingle).2 fun file hfile hgz => by
    rw [hplain file hfile] at hgz
    cases hgz
  have hread := partitionInputData_eq hsingle
  rw [hone, List.range_one, List.map_singleton, linesOf_one hone, List.map_eq_singleton_iff] at hread
  obtain ⟨part, rfl, htext⟩ := hread
  unfold singleOutput
  rw [hsingle]
  simp only
  rw [List.head?_cons, Option.bind_some, processJsonFile,
    readPartition_of_plain (hgz part List.mem_cons_self), readLines, htext,
    splitLines_flatten fun line hline => (isLine_of_mem_allLines hline).1]
  rfl

/-- A single compressed file is not encoded in a single partition. -/
theorem singleOutput_of_gz {τ : Type} (encode : List Char → Option (Document τ)) {file : JsonlFile}
    (hgz : file.gz = true) : singleOutput args encode [file] = none := by
  show ([file] : List JsonlFile).head?.bind (processJsonFile encode) = none
  rw [List.head?_cons, Option.bind_some, processJsonFile, readPartition, if_pos hgz]
  rfl

theorem partitionOf_eq_iff {size i j : ℕ} (hseq : args.keepSequentialSamples = false) :
    partitionOf args size i = partitionOf args size j ↔
      i % args.partitions = j % args.partitions := by
  unfold partitionOf
  simp [hseq]

/-- The document of a line as it is: its length is kept in the index. -/
def lineDocument (line : List Char) : Option (Document Char) := some ⟨line, [line.length]⟩

theorem sequenceLengths_lineDocument (lines : List (List Char)) :
    ((lines.mapM lineDocument).map fun documents =>
      (documents.foldl IndexedDatasetBuilder.addDocument .new).sequenceLengths.length) =
      some lines.length := by
  have hmap : lines.mapM lineDocument = some (lines.map fun line => ⟨line, [line.length]⟩) := by
    induction lines with
    | nil => rfl
    | cons line lines ih =>
      rw [List.mapM_cons, ih]
      rfl
  have hfold : ∀ builder : IndexedDatasetBuilder Char,
      ((lines.map fun line => (⟨line, [line.length]⟩ : Document Char)).foldl
        IndexedDatasetBuilder.addDocument builder).sequenceLengths.length =
        builder.sequenceLengths.length + lines.length := by
    clear hmap
    induction lines with
    | nil => exact fun builder => rfl
    | cons line lines ih =>
      intro builder
      rw [List.map_cons, List.foldl_cons, ih]
      simp only [IndexedDatasetBuilder.addDocument, List.length_append, List.length_cons, List.length_nil]
      omega
  rw [hmap, Option.map_some, hfold]
  simp [IndexedDatasetBuilder.new]

theorem decompressed_of_correct (h : partitionInputData args files = .ok parts)
    (hcorrect : PartitionsCorrect args files parts) : Decompressed args files := by
  rintro file rfl hgz
  obtain ⟨read, hread, -⟩ := hcorrect.records
  have hplain := (readRecords_eq_ok_iff.1 hread).1
  refine ⟨(partitionInputData_plain h).1 hplain file rfl hgz, ?_⟩
  by_contra hseq
  have hmerged := hcorrect.merged (by simpa using hseq) lineDocument
  rw [mergePartitionOutputs_eq hplain, singleOutput_of_gz lineDocument hgz] at hmerged
  have hcount := congrArg (Option.map fun index : IndexedDatasetBuilder Char =>
    index.sequenceLengths.length) hmerged
  rw [Option.map_map] at hcount
  exact absurd ((sequenceLengths_lineDocument _).symm.trans hcount) (by simp)

theorem keptApart_of_correct (h : partitionInputData args files = .ok parts)
    (hcorrect : PartitionsCorrect args files parts) : KeptApart args files := by
  obtain ⟨read, hread, hperm⟩ := hcorrect.records
  obtain ⟨hplain, rfl⟩ := readRecords_eq_ok_iff.1 hread
  have hlength := hperm.length_eq
  rw [flatMap_recordsOf, List.length_map, List.length_map, flatMap_readLines h] at hlength
  have hglue := glue_linesOf_of_length hlength
  intro i j hij hj hsame line hline
  by_cases hseq : args.keepSequentialSamples = true
  · -- a single partition reads as many lines as the partitions do
    have hmerged := hcorrect.merged hseq lineDocument
    have hsingle : ∀ file, files = [file] → file.gz = false := fun file hfile => by
      by_contra hgz
      exact absurd hseq (by simp [(decompressed_of_correct h hcorrect file hfile (by simpa using hgz)).2])
    rw [mergePartitionOutputs_eq hplain, singleOutput_eq _ h hsingle] at hmerged
    have hcount := congrArg (Option.map fun index : IndexedDatasetBuilder Char =>
      index.sequenceLengths.length) hmerged
    rw [Option.map_map, Option.map_map] at hcount
    have hleft := sequenceLengths_lineDocument (parts.flatMap fun part => readLines part.text)
    have hright := sequenceLengths_lineDocument (glue (allLines files))
    have hall := Option.some.inj (hleft.symm.trans (hcount.trans hright))
    rw [flatMap_readLines h, hlength] at hall
    refine length_glue_eq_iff.1 hall.symm line ?_
    refine List.mem_of_getElem? (i := i) ?_
    rw [List.getElem?_dropLast, if_pos (by omega), hline]
  · have hseq' : args.keepSequentialSamples = false := by simpa using hseq
    have hp : partitionOf args (partitionSize args files) i =
        partitionOf args (partitionSize args files) j := (partitionOf_eq_iff hseq').2 (hsame hseq')
    exact glue_linesOf_iff.1 hglue i j hij hj hp line hline

theorem correct_of_keptApart (h : partitionInputData args files = .ok parts)
    (hdecompressed : Decompressed args files) (hapart : KeptApart args files) :
    PartitionsCorrect args files parts := by
  have hglue : ∀ p < args.partitions,
      glue (linesOf args (partitionSize args files) (allLines files) p) =
        linesOf args (partitionSize args files) (allLines files) p := by
    refine glue_linesOf_iff.2 fun i j hij hj hp line hline => hapart i j hij hj (fun hseq => ?_)
      line hline
    exact (partitionOf_eq_iff hseq).1 hp
  have hplain : ∀ part ∈ parts, part.gz = false :=
    (partitionInputData_plain h).2 fun file hfile hgz => (hdecompressed file hfile hgz).1
  have hread : (parts.flatMap fun part => readLines part.text) =
      (List.range args.partitions).flatMap
        (linesOf args (partitionSize args files) (allLines files)) := by
    rw [flatMap_readLines h]
    exact List.flatMap_congr fun p hp => hglue p (List.mem_range.1 hp)
  have hordered : args.keepSequentialSamples = true →
      (parts.flatMap fun part => readLines part.text) = allLines files :=
    fun hseq => hread.trans (flatMap_linesOf hseq _)
  refine ⟨⟨_, readRecords_eq_ok_iff.2 ⟨hplain, rfl⟩, ?_⟩, fun hseq => ?_, fun hseq τ encode => ?_⟩
  · rw [flatMap_recordsOf, hread]
    exact (flatMap_linesOf_perm _).map record
  · rw [readRecords_eq_ok_iff, flatMap_recordsOf, hordered hseq]
    exact ⟨hplain, rfl⟩
  · have hall : glue (allLines files) = allLines files := by
      refine glue_eq_self fun line hline => ?_
      obtain ⟨i, hi⟩ := List.getElem?_of_mem hline
      rw [List.getElem?_dropLast] at hi
      split_ifs at hi with hlt
      refine hapart i (i + 1) (Nat.lt_succ_self i) (by omega) (fun hfalse => ?_) line hi
      simp [hseq] at hfalse
    have hsingle : ∀ file, files = [file] → file.gz = false := fun file hfile => by
      by_contra hgz
      exact absurd hseq (by simp [(hdecompressed file hfile (by simpa using hgz)).2])
    rw [mergePartitionOutputs_eq hplain, singleOutput_eq encode h hsingle, hordered hseq, hall]

end Records

end HyperParallel.Data

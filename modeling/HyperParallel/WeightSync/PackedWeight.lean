import HyperParallel.Lib.Dict
import HyperParallel.Lib.ExceptList
import HyperParallel.Lib.FlatBuffer
import HyperParallel.Lib.Intervals
import Mathlib.Algebra.BigOperators.Ring.List
import Mathlib.Data.List.Sort

/-!
# Packed weights

`rl/roles/weight_sync/packed_weight.py`, and the rows of `model_adapter.py` that go with it.

* `buildPackedWeightBuckets`: the parameters of a state dict, with offsets, in buckets;
* `materializePackedWeightBucket`: the bytes of a bucket;
* `packedMetadata`, `unpackPackedWeights`: the tensors of a bucket again, fused projections by rows;
* `BucketLayout`, `bucketsOf_finish`: aligned entries without overlap, within the limit.
-/

namespace HyperParallel.WeightSync

/-- A dtype of torch; its name finds it again. -/
structure DType where
  name : String
  itemsize : ℕ
  isFloatingPoint : Bool
  itemsize_pos : 0 < itemsize
  deriving DecidableEq

/-- A complete tensor: its bytes in row-major order. -/
structure WeightTensor where
  dtype : DType
  shape : List ℕ
  bytes : List UInt8
  deriving DecidableEq

def WeightTensor.WellFormed (t : WeightTensor) : Prop :=
  t.bytes.length = t.shape.prod * t.dtype.itemsize

instance (t : WeightTensor) : Decidable t.WellFormed := inferInstanceAs (Decidable (_ = _))

/-- A state dict, with the complete tensor of every value. -/
structure StateDict where
  items : List (String × WeightTensor)
  nodup : (items.map Prod.fst).Nodup
  wellFormed : ∀ item ∈ items, item.2.WellFormed

/-- `PackedWeight` -/
structure PackedWeight where
  name : String
  dtypeName : DType
  shape : List ℕ
  elementSize : ℕ
  bufferOffset : ℕ
  deriving DecidableEq

def PackedWeight.numBytes (e : PackedWeight) : ℕ := e.shape.prod * e.elementSize

def PackedWeight.atOffset (e : PackedWeight) (offset : ℕ) : PackedWeight :=
  { e with bufferOffset := offset }

/-- `PackedWeightBucket` -/
structure PackedWeightBucket where
  entries : List PackedWeight
  totalBytes : ℕ
  deriving DecidableEq

/-- The errors, with the parameter they name. -/
inductive WeightError
  | bucketSize
  | invalidShape (name : String)
  | noParameters
  | missing (name : String)
  | contract (name : String)
  | byteCount (name : String)
  | invalidMetadata (name : String)
  | exceedsBuffer (name : String)
  | unaligned (name : String)
  | incompatibleShape (name : String)
  | divisionByZero
  | rowMatrix
  | rowCoverage
  | rowTarget (name : String)
  deriving DecidableEq

/-! ### The plan -/

/-- `_aligned_offset` -/
def alignedOffset (offset alignment : ℕ) : ℕ := (offset + alignment - 1) / alignment * alignment

/-- The entry of a parameter, before it has an offset. -/
def packedEntry (item : String × WeightTensor) : Except WeightError PackedWeight :=
  if item.2.shape = [] ∨ ∃ size ∈ item.2.shape, size = 0 then .error (.invalidShape item.1)
  else .ok ⟨item.1, item.2.dtype, item.2.shape, item.2.dtype.itemsize, 0⟩

/-- The parameters that are published, in the order of their names. -/
def StateDict.published (dict : StateDict) (skipNames : List String) :
    List (String × WeightTensor) :=
  (dict.items.insertionSort fun a b => a.1 ≤ b.1).filter fun item =>
    item.1 ∉ skipNames ∧ item.2.dtype.isFloatingPoint

/-- The loop over the entries. -/
structure BucketState where
  buckets : List PackedWeightBucket
  current : List PackedWeight
  currentBytes : ℕ

/-- The bucket of the loop, if the entry does not fit into it, is done. -/
def BucketState.flush (s : BucketState) (limit : ℕ) (entry : PackedWeight) : BucketState :=
  if s.current ≠ [] ∧
      limit < alignedOffset s.currentBytes entry.elementSize + entry.numBytes then
    ⟨s.buckets ++ [⟨s.current, s.currentBytes⟩], [], 0⟩
  else s

/-- The entry at the end of the bucket. -/
def BucketState.append (s : BucketState) (limit : ℕ) (entry : PackedWeight) : BucketState :=
  let offset := alignedOffset s.currentBytes entry.elementSize
  let current := s.current ++ [entry.atOffset offset]
  if limit ≤ entry.numBytes then
    ⟨s.buckets ++ [⟨current, offset + entry.numBytes⟩], [], 0⟩
  else ⟨s.buckets, current, offset + entry.numBytes⟩

def BucketState.addEntry (limit : ℕ) (s : BucketState) (entry : PackedWeight) : BucketState :=
  (s.flush limit entry).append limit entry

def BucketState.finish (s : BucketState) : List PackedWeightBucket :=
  if s.current = [] then s.buckets else s.buckets ++ [⟨s.current, s.currentBytes⟩]

/-- `build_packed_weight_buckets` -/
def buildPackedWeightBuckets (dict : StateDict) (bucketSizeBytes : ℤ) (skipNames : List String) :
    Except WeightError (List PackedWeightBucket) :=
  if bucketSizeBytes ≤ 0 then .error .bucketSize
  else do
    let entries ← (dict.published skipNames).mapM packedEntry
    if entries = [] then .error .noParameters
    else .ok (entries.foldl (BucketState.addEntry bucketSizeBytes.toNat) ⟨[], [], 0⟩).finish

/-! ### The bytes -/

/-- The loop that packs the tensors. -/
def packTensors (packed : List UInt8) :
    List (PackedWeight × WeightTensor) → Except WeightError (List UInt8)
  | [] => .ok packed
  | (entry, tensor) :: rest =>
    if tensor.bytes.length ≠ entry.numBytes then .error (.byteCount entry.name)
    else if packed.length < entry.bufferOffset + entry.numBytes then
      .error (.exceedsBuffer entry.name)
    else packTensors (FlatBuffer.write packed entry.bufferOffset tensor.bytes) rest

/-- What `full_tensor` returns must be what the entry says. -/
def sourceTensor (dict : StateDict) (entry : PackedWeight) : Except WeightError WeightTensor :=
  match dict.items.lookup entry.name with
  | none => .error (.missing entry.name)
  | some tensor =>
    if tensor.shape ≠ entry.shape ∨ tensor.dtype ≠ entry.dtypeName ∨
        tensor.dtype.itemsize ≠ entry.elementSize then .error (.contract entry.name)
    else .ok tensor

/-- `materialize_packed_weight_bucket`; `empty` is what the allocated buffer holds. -/
def materializePackedWeightBucket (dict : StateDict) (bucket : PackedWeightBucket)
    (producerRank rank : ℕ) (empty : ℕ → UInt8) : Except WeightError (Option (List UInt8)) := do
  let tensors ← bucket.entries.mapM (sourceTensor dict)
  if rank ≠ producerRank then .ok none
  else
    let packed ← packTensors ((List.range bucket.totalBytes).map empty)
      (bucket.entries.zip tensors)
    .ok (some packed)

/-! ### Rows -/

/-- `_WeightRows` -/
structure WeightRows where
  name : String
  sourceStart : ℕ
  targetStart : ℕ
  length : ℕ
  targetRows : ℕ
  deriving DecidableEq

/-- The attention shape of a model. -/
structure AttentionConfig where
  numAttentionHeads : ℕ
  numKeyValueHeads : ℕ
  headDim : ℕ

/-- The rows of the queries of a group. -/
def AttentionConfig.queryRows (config : AttentionConfig) : ℕ :=
  config.numAttentionHeads / config.numKeyValueHeads * config.headDim

/-- `name.endswith(suffix)` -/
def endsWith (name suffix : String) : Bool := suffix.toList.isSuffixOf name.toList

/-- `name.removesuffix(suffix)` -/
def removeSuffix (name suffix : String) : String :=
  if endsWith name suffix then
    String.ofList (name.toList.take (name.toList.length - suffix.toList.length))
  else name

/-- `_canonical_weight_rows` -/
def canonicalWeightRows (name : String) (config : AttentionConfig) :
    Except WeightError (List WeightRows) :=
  if config.numKeyValueHeads = 0 then .error .divisionByZero
  else
    let groups := config.numKeyValueHeads
    let stem := removeSuffix name "linear_qkv.weight"
    .ok ((List.range groups).flatMap fun group =>
      let offset := group * (config.queryRows + config.headDim + config.headDim)
      [⟨stem ++ "q_proj" ++ ".weight", offset, group * config.queryRows, config.queryRows,
          groups * config.queryRows⟩,
        ⟨stem ++ "k_proj" ++ ".weight", offset + config.queryRows, group * config.headDim,
          config.headDim, groups * config.headDim⟩,
        ⟨stem ++ "v_proj" ++ ".weight", offset + config.queryRows + config.headDim,
          group * config.headDim, config.headDim, groups * config.headDim⟩])

/-- An item of `worker_metadata`, with the rows `packed_metadata` attaches. -/
structure WeightMetadata where
  name : String
  dtypeName : DType
  shape : List ℕ
  bufferOffset : ℕ
  numBytes : ℕ
  canonicalRows : Option (List WeightRows)

def PackedWeight.workerMetadata (e : PackedWeight) : WeightMetadata :=
  ⟨e.name, e.dtypeName, e.shape, e.bufferOffset, e.numBytes, none⟩

/-- `ModelWeightAdapter._canonical_rows` -/
def adapterRows (config : AttentionConfig) (name : String) :
    Except WeightError (List WeightRows) :=
  if endsWith name "self_attn.linear_qkv.weight" then canonicalWeightRows name config else .ok []

/-- The loop of `ModelWeightAdapter.packed_metadata`. -/
def packedMetadataEntry (config : AttentionConfig) (entry : WeightMetadata) :
    Except WeightError WeightMetadata := do
  let rows ← adapterRows config entry.name
  if rows = [] then .ok entry
  else if entry.shape.length ≠ 2 ∨ (rows.map WeightRows.length).sum ≠ entry.shape.headD 0 then
    .error (.incompatibleShape entry.name)
  else .ok { entry with canonicalRows := some rows }

def packedMetadata (config : AttentionConfig) (metadata : List WeightMetadata) :
    Except WeightError (List WeightMetadata) := metadata.mapM (packedMetadataEntry config)

/-- `tensor.narrow(0, start, length)` of a matrix. -/
def narrowRows (t : WeightTensor) (start length : ℕ) : WeightTensor :=
  let rowBytes := t.shape.getD 1 0 * t.dtype.itemsize
  ⟨t.dtype, [length, t.shape.getD 1 0],
    FlatBuffer.narrow t.bytes (start * rowBytes) (length * rowBytes)⟩

/-- `torch.cat(tensors, dim=0)` of rows of `t`. -/
def catRows (t : WeightTensor) (parts : List WeightTensor) : WeightTensor :=
  ⟨t.dtype, [(parts.map fun part => part.shape.headD 0).sum, t.shape.getD 1 0],
    parts.flatMap WeightTensor.bytes⟩

/-- The rows must cover the source from its first row on; where they end. -/
def sourceEnd (total : ℕ) : ℕ → List WeightRows → Option ℕ
  | stop, [] => some stop
  | stop, row :: rows =>
    if row.sourceStart ≠ stop ∨ row.length = 0 ∨ total < row.sourceStart + row.length then none
    else sourceEnd total (stop + row.length) rows

/-- The same for the parts of a canonical matrix. -/
def targetEnd (targetRows : ℕ) : ℕ → List WeightRows → Option ℕ
  | stop, [] => some stop
  | stop, part :: parts =>
    if part.targetStart ≠ stop ∨ part.targetRows ≠ targetRows then none
    else targetEnd targetRows (stop + part.length) parts

/-- One of the matrices of `_unpack_canonical_rows`. -/
def canonicalWeight (tensor : WeightTensor) (name : String) (parts : List WeightRows) :
    Except WeightError (String × WeightTensor) :=
  let targetRows := (parts.head?.map WeightRows.targetRows).getD 0
  let ordered := parts.insertionSort fun a b => a.targetStart ≤ b.targetStart
  if targetEnd targetRows 0 ordered = some targetRows then
    .ok (name, catRows tensor
      (ordered.map fun part => narrowRows tensor part.sourceStart part.length))
  else .error (.rowTarget name)

/-- `_unpack_canonical_rows` -/
def unpackCanonicalRows (tensor : WeightTensor) (rows : List WeightRows) :
    Except WeightError (List (String × WeightTensor)) :=
  if tensor.shape.length ≠ 2 ∨ rows = [] then .error .rowMatrix
  else
    let ordered := rows.insertionSort fun a b => a.sourceStart ≤ b.sourceStart
    if sourceEnd (tensor.shape.headD 0) 0 ordered = some (tensor.shape.headD 0) then
      (Dict.firstKeys WeightRows.name ordered).mapM fun name =>
        canonicalWeight tensor name (ordered.filter (·.name = name))
    else .error .rowCoverage

/-- The loop of `unpack_packed_weights`; a view of another dtype starts at a multiple of its
item size. -/
def unpackWeight (packed : List UInt8) (entry : WeightMetadata) :
    Except WeightError (List (String × WeightTensor)) :=
  if entry.numBytes ≠ entry.shape.prod * entry.dtypeName.itemsize then
    .error (.invalidMetadata entry.name)
  else if packed.length < entry.bufferOffset + entry.numBytes then
    .error (.exceedsBuffer entry.name)
  else if entry.bufferOffset % entry.dtypeName.itemsize ≠ 0 then .error (.unaligned entry.name)
  else
    let tensor : WeightTensor :=
      ⟨entry.dtypeName, entry.shape, FlatBuffer.narrow packed entry.bufferOffset entry.numBytes⟩
    match entry.canonicalRows with
    | none => .ok [(entry.name, tensor)]
    | some rows => unpackCanonicalRows tensor rows

/-- `unpack_packed_weights` -/
def unpackPackedWeights (packed : List UInt8) (metadata : List WeightMetadata) :
    Except WeightError (List (String × WeightTensor)) :=
  (metadata.mapM (unpackWeight packed)).map List.flatten

/-! ### The layout of a bucket -/

/-- What a bucket satisfies: aligned entries, one behind the other, within the limit unless there is
a single one that is not. -/
structure BucketLayout (limit : ℕ) (bucket : PackedWeightBucket) : Prop where
  aligned : ∀ e ∈ bucket.entries, e.elementSize ∣ e.bufferOffset
  disjoint : bucket.entries.Pairwise fun a b => a.bufferOffset + a.numBytes ≤ b.bufferOffset
  fits : ∀ e ∈ bucket.entries, e.bufferOffset + e.numBytes ≤ bucket.totalBytes
  bounded : limit < bucket.totalBytes → ∃ e, bucket.entries = [e] ∧ limit < e.numBytes

section Layout

variable {limit : ℕ}

theorem dvd_alignedOffset (offset alignment : ℕ) : alignment ∣ alignedOffset offset alignment :=
  Dvd.intro_left _ rfl

theorem le_alignedOffset (offset : ℕ) {alignment : ℕ} (h : 0 < alignment) :
    offset ≤ alignedOffset offset alignment := by
  have hmod := Nat.div_add_mod' (offset + alignment - 1) alignment
  have hlt := Nat.mod_lt (offset + alignment - 1) h
  rw [alignedOffset]
  omega

theorem alignedOffset_zero {alignment : ℕ} (h : 0 < alignment) : alignedOffset 0 alignment = 0 := by
  rw [alignedOffset, Nat.zero_add, Nat.div_eq_of_lt (Nat.sub_lt h Nat.one_pos), Nat.zero_mul]

/-- An entry without its offset. -/
def PackedWeight.unplaced (e : PackedWeight) : PackedWeight := e.atOffset 0

/-- The loop after some entries. -/
structure BucketsOf (limit : ℕ) (entries : List PackedWeight) (s : BucketState) : Prop where
  entries_eq : ((s.buckets.flatMap PackedWeightBucket.entries) ++ s.current).map
    PackedWeight.unplaced = entries
  layout : ∀ bucket ∈ s.buckets, BucketLayout limit bucket
  current : BucketLayout limit ⟨s.current, s.currentBytes⟩
  currentBytes_le : s.currentBytes ≤ limit
  currentBytes_zero : s.current = [] ↔ s.currentBytes = 0

theorem bucketLayout_nil : BucketLayout limit ⟨[], 0⟩ where
  aligned := fun _ h => absurd h List.not_mem_nil
  disjoint := .nil
  fits := fun _ h => absurd h List.not_mem_nil
  bounded := fun h => absurd h (Nat.not_lt_zero limit)

variable {entries : List PackedWeight} {s : BucketState} {entry : PackedWeight}

theorem BucketsOf.flush (hs : BucketsOf limit entries s) (entry : PackedWeight) :
    BucketsOf limit entries (s.flush limit entry) ∧
      ((s.flush limit entry).current ≠ [] →
        alignedOffset (s.flush limit entry).currentBytes entry.elementSize + entry.numBytes ≤
          limit) := by
  rw [BucketState.flush]
  split_ifs with hfull
  · refine ⟨⟨?_, ?_, bucketLayout_nil, Nat.zero_le _, ⟨fun _ => rfl, fun _ => rfl⟩⟩,
      fun h => absurd rfl h⟩
    · rw [List.flatMap_append, List.flatMap_singleton, List.append_nil]
      exact hs.entries_eq
    · intro bucket hbucket
      rcases List.mem_append.1 hbucket with hbucket | hbucket
      · exact hs.layout bucket hbucket
      · rw [List.mem_singleton.1 hbucket]
        exact hs.current
  · refine ⟨hs, fun hcurrent => ?_⟩
    by_contra hlt
    exact hfull ⟨hcurrent, by omega⟩

theorem BucketsOf.append (hs : BucketsOf limit entries s) (hsize : 0 < entry.elementSize)
    (hbytes : 0 < entry.numBytes) (hunplaced : entry.unplaced = entry)
    (hroom : s.current ≠ [] →
      alignedOffset s.currentBytes entry.elementSize + entry.numBytes ≤ limit) :
    BucketsOf limit (entries ++ [entry]) (s.append limit entry) := by
  have hle := le_alignedOffset s.currentBytes hsize
  have hfirst : s.current = [] → alignedOffset s.currentBytes entry.elementSize = 0 := by
    intro hnil
    rw [hs.currentBytes_zero.1 hnil, alignedOffset_zero hsize]
  have hplaced : (entry.atOffset (alignedOffset s.currentBytes entry.elementSize)).unplaced =
      entry := hunplaced
  have hlayout : BucketLayout limit
      ⟨s.current ++ [entry.atOffset (alignedOffset s.currentBytes entry.elementSize)],
        alignedOffset s.currentBytes entry.elementSize + entry.numBytes⟩ := by
    refine ⟨?_, ?_, ?_, ?_⟩
    · intro e he
      rcases List.mem_append.1 he with he | he
      · exact hs.current.aligned e he
      · rw [List.mem_singleton.1 he]
        exact dvd_alignedOffset _ _
    · refine List.pairwise_append.2 ⟨hs.current.disjoint, List.pairwise_singleton _ _, ?_⟩
      intro a ha b hb
      rw [List.mem_singleton.1 hb]
      exact (hs.current.fits a ha).trans hle
    · intro e he
      rcases List.mem_append.1 he with he | he
      · have := hs.current.fits e he
        dsimp only at this ⊢
        omega
      · rw [List.mem_singleton.1 he]
        exact Nat.le_refl _
    · intro hlt
      by_cases hnil : s.current = []
      · refine ⟨entry.atOffset (alignedOffset s.currentBytes entry.elementSize), ?_, ?_⟩
        · rw [hnil, List.nil_append]
        · have := hfirst hnil
          change limit < entry.numBytes
          dsimp only at hlt
          omega
      · exact absurd (hroom hnil) (Nat.not_le.2 hlt)
  rw [BucketState.append]
  split_ifs with hlarge
  · refine ⟨?_, ?_, bucketLayout_nil, Nat.zero_le _, ⟨fun _ => rfl, fun _ => rfl⟩⟩
    · rw [List.flatMap_append, List.flatMap_singleton, List.append_nil, ← List.append_assoc,
        List.map_append, hs.entries_eq, List.map_singleton, hplaced]
    · intro bucket hbucket
      rcases List.mem_append.1 hbucket with hbucket | hbucket
      · exact hs.layout bucket hbucket
      · rw [List.mem_singleton.1 hbucket]
        exact hlayout
  · refine ⟨?_, hs.layout, hlayout, ?_, ?_⟩
    · rw [← List.append_assoc, List.map_append, hs.entries_eq, List.map_singleton, hplaced]
    · by_cases hnil : s.current = []
      · have := hfirst hnil
        dsimp only
        omega
      · exact hroom hnil
    · dsimp only
      constructor
      · intro h
        exact absurd h (List.append_ne_nil_of_right_ne_nil _ (List.cons_ne_nil _ _))
      · omega

theorem bucketsOf_foldl {rest : List PackedWeight} (hs : BucketsOf limit entries s)
    (hrest : ∀ e ∈ rest, 0 < e.elementSize ∧ 0 < e.numBytes ∧ e.unplaced = e) :
    BucketsOf limit (entries ++ rest) (rest.foldl (BucketState.addEntry limit) s) := by
  induction rest generalizing entries s with
  | nil =>
    rw [List.append_nil]
    exact hs
  | cons e rest ih =>
    obtain ⟨hsize, hbytes, hunplaced⟩ := hrest e List.mem_cons_self
    obtain ⟨hflush, hroom⟩ := hs.flush e
    have hnext := ih (hflush.append hsize hbytes hunplaced hroom)
      fun e he => hrest e (List.mem_cons_of_mem _ he)
    rw [List.append_assoc, List.singleton_append] at hnext
    exact hnext

/-- The buckets of some entries: each entry in one of them, in order, and every bucket laid out. -/
theorem bucketsOf_finish (limit : ℕ) {rest : List PackedWeight}
    (hrest : ∀ e ∈ rest, 0 < e.elementSize ∧ 0 < e.numBytes ∧ e.unplaced = e) :
    ((rest.foldl (BucketState.addEntry limit) ⟨[], [], 0⟩).finish.flatMap
        PackedWeightBucket.entries).map PackedWeight.unplaced = rest ∧
      ∀ bucket ∈ (rest.foldl (BucketState.addEntry limit) ⟨[], [], 0⟩).finish,
        BucketLayout limit bucket := by
  have hinit : BucketsOf limit [] ⟨[], [], 0⟩ :=
    ⟨rfl, fun _ h => absurd h List.not_mem_nil, bucketLayout_nil, Nat.zero_le _,
      ⟨fun _ => rfl, fun _ => rfl⟩⟩
  have hs := bucketsOf_foldl hinit hrest
  rw [List.nil_append] at hs
  obtain ⟨s, hfold⟩ : ∃ s, s = rest.foldl (BucketState.addEntry limit) ⟨[], [], 0⟩ := ⟨_, rfl⟩
  rw [← hfold] at hs ⊢
  rw [BucketState.finish]
  split_ifs with hnil
  · refine ⟨?_, hs.layout⟩
    have := hs.entries_eq
    rwa [hnil, List.append_nil] at this
  · refine ⟨?_, fun bucket hbucket => ?_⟩
    · rw [List.flatMap_append, List.flatMap_singleton]
      exact hs.entries_eq
    · rcases List.mem_append.1 hbucket with hbucket | hbucket
      · exact hs.layout bucket hbucket
      · rw [List.mem_singleton.1 hbucket]
        exact hs.current

end Layout

end HyperParallel.WeightSync

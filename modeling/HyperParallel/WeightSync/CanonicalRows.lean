import HyperParallel.WeightSync.PackedWeight

/-!
# The parameters of the packed buckets

* `packTensors_ok`: a packed buffer holds every parameter at its offset;
* `Projections`: the query, key and value matrices of a layer, and their fused weight;
* `exists_fused_eq`, `exists_canonical`: every weight of the right shape is one;
* `unpackCanonicalRows_fused`: the rows of the adapter take the fused weight apart again;
* `packed_roundtrip`: what the buckets are unpacked to.
-/

namespace HyperParallel.WeightSync

/-! ### The bytes of a bucket -/

/-- Every tensor is in the buffer at the offset of its entry, and nothing before the first of
them has changed. -/
theorem packTensors_ok (packed : List UInt8) {pairs : List (PackedWeight × WeightTensor)}
    (hbytes : ∀ p ∈ pairs, p.2.bytes.length = p.1.numBytes)
    (hfits : ∀ p ∈ pairs, p.1.bufferOffset + p.1.numBytes ≤ packed.length)
    (hdisjoint : pairs.Pairwise fun a b => a.1.bufferOffset + a.1.numBytes ≤ b.1.bufferOffset) :
    ∃ result, packTensors packed pairs = .ok result ∧ result.length = packed.length ∧
      (∀ p ∈ pairs, FlatBuffer.narrow result p.1.bufferOffset p.1.numBytes = p.2.bytes) ∧
      ∀ start length, (∀ p ∈ pairs, start + length ≤ p.1.bufferOffset) →
        FlatBuffer.narrow result start length = FlatBuffer.narrow packed start length := by
  induction pairs generalizing packed with
  | nil => exact ⟨packed, rfl, rfl, fun _ h => absurd h List.not_mem_nil, fun _ _ _ => rfl⟩
  | cons p pairs ih =>
    obtain ⟨entry, tensor⟩ := p
    obtain ⟨hfirst, hrest⟩ := List.pairwise_cons.1 hdisjoint
    have hlength : tensor.bytes.length = entry.numBytes := hbytes _ List.mem_cons_self
    have hfit : entry.bufferOffset + entry.numBytes ≤ packed.length :=
      hfits _ List.mem_cons_self
    have hcopy : (FlatBuffer.write packed entry.bufferOffset tensor.bytes).length =
        packed.length := FlatBuffer.length_write (by omega)
    obtain ⟨result, hresult, hsize, hslices, hbefore⟩ :=
      ih (FlatBuffer.write packed entry.bufferOffset tensor.bytes)
        (fun p hp => hbytes p (List.mem_cons_of_mem _ hp))
        (fun p hp => hcopy ▸ hfits p (List.mem_cons_of_mem _ hp)) hrest
    refine ⟨result, ?_, hsize.trans hcopy, ?_, ?_⟩
    · rw [packTensors, if_neg (not_not.2 hlength), if_neg (Nat.not_lt.2 hfit)]
      exact hresult
    · intro p hp
      rcases List.mem_cons.1 hp with rfl | hp
      · rw [hbefore entry.bufferOffset entry.numBytes fun p hp => hfirst p hp, ← hlength]
        exact FlatBuffer.narrow_write_self (by omega)
      · exact hslices p hp
    · intro start length hstart
      rw [hbefore start length fun p hp => hstart p (List.mem_cons_of_mem _ hp)]
      exact FlatBuffer.narrow_write_before (hstart _ List.mem_cons_self) (by omega)

/-! ### The rows of a fused weight -/

/-- A name ends in what is appended to it, and loses it again. -/
theorem removeSuffix_append (stem suffix : String) :
    removeSuffix (stem ++ suffix) suffix = stem := by
  have hsuffix : endsWith (stem ++ suffix) suffix = true :=
    List.isSuffixOf_iff_suffix.2 ⟨stem.toList, String.toList_append.symm⟩
  rw [removeSuffix, if_pos hsuffix, String.toList_append, List.length_append,
    Nat.add_sub_cancel, List.take_left, String.ofList_toList]

theorem pairwise_of_sourceEnd {total stop stop' : ℕ} {rows : List WeightRows}
    (h : sourceEnd total stop rows = some stop') :
    (∀ row ∈ rows, stop ≤ row.sourceStart) ∧
      rows.Pairwise fun a b => a.sourceStart ≤ b.sourceStart := by
  induction rows generalizing stop with
  | nil => exact ⟨fun _ hrow => absurd hrow List.not_mem_nil, .nil⟩
  | cons row rows ih =>
    rw [sourceEnd] at h
    split_ifs at h with hrow
    push Not at hrow
    obtain ⟨hle, hpairwise⟩ := ih h
    refine ⟨fun row' hrow' => ?_, List.pairwise_cons.2 ⟨fun row' hrow' => ?_, hpairwise⟩⟩
    · rcases List.mem_cons.1 hrow' with rfl | hrow'
      · exact hrow.1.ge
      · exact (Nat.le_add_right _ _).trans (hle row' hrow')
    · exact hrow.1 ▸ (Nat.le_add_right _ _).trans (hle row' hrow')

/-- The rows of a group: queries, keys, values. -/
def groupRows (q k v : String) (queries keys groups group : ℕ) : List WeightRows :=
  [⟨q, group * (queries + keys + keys), group * queries, queries, groups * queries⟩,
    ⟨k, group * (queries + keys + keys) + queries, group * keys, keys, groups * keys⟩,
    ⟨v, group * (queries + keys + keys) + queries + keys, group * keys, keys, groups * keys⟩]

section Groups

variable {q k v : String} {queries keys groups : ℕ}

theorem sourceEnd_groupRows (hqueries : 0 < queries) (hkeys : 0 < keys) {total first n : ℕ}
    (htotal : (first + n) * (queries + keys + keys) ≤ total) :
    sourceEnd total (first * (queries + keys + keys))
        ((List.range' first n).flatMap (groupRows q k v queries keys groups)) =
      some ((first + n) * (queries + keys + keys)) := by
  induction n generalizing first with
  | zero => rfl
  | succ n ih =>
    have hnext : (first + 1) * (queries + keys + keys) =
        first * (queries + keys + keys) + queries + keys + keys := by
      rw [Nat.succ_mul]
      omega
    have hle := Nat.mul_le_mul_right (queries + keys + keys) (Nat.le_add_right (first + 1) n)
    rw [show first + (n + 1) = first + 1 + n by omega] at htotal ⊢
    rw [List.range'_succ, List.flatMap_cons, groupRows, List.cons_append, List.cons_append,
      List.cons_append, List.nil_append, sourceEnd, if_neg (by dsimp only; omega), sourceEnd,
      if_neg (by dsimp only; omega), sourceEnd, if_neg (by dsimp only; omega), ← ih htotal, hnext]

theorem targetEnd_range' {name : String} {start : ℕ → ℕ} {size targetRows first n : ℕ} :
    targetEnd targetRows (first * size)
        ((List.range' first n).map fun group =>
          ⟨name, start group, group * size, size, targetRows⟩) =
      some ((first + n) * size) := by
  induction n generalizing first with
  | zero => rfl
  | succ n ih =>
    rw [List.range'_succ, List.map_cons, targetEnd, if_neg (by simp), ← Nat.succ_mul, ih,
      Nat.succ_eq_add_one, show first + 1 + n = first + (n + 1) by omega]

/-- A matrix whose rows lie in equal parts over the groups. -/
theorem canonicalWeight_range {tensor : WeightTensor} {name : String} {start : ℕ → ℕ} {size : ℕ}
    (hgroups : 0 < groups) :
    canonicalWeight tensor name ((List.range groups).map fun group =>
        ⟨name, start group, group * size, size, groups * size⟩) =
      .ok (name, ⟨tensor.dtype, [groups * size, tensor.shape.getD 1 0],
        (List.range groups).flatMap fun group =>
          (narrowRows tensor (start group) size).bytes⟩) := by
  have hsorted : ((List.range groups).map fun group : ℕ =>
      (⟨name, start group, group * size, size, groups * size⟩ : WeightRows)).insertionSort
        (fun a b => a.targetStart ≤ b.targetStart) =
      (List.range groups).map fun group =>
        ⟨name, start group, group * size, size, groups * size⟩ := by
    refine List.Pairwise.insertionSort_eq (List.pairwise_map.2 ?_)
    exact List.pairwise_lt_range.imp fun hlt => Nat.mul_le_mul_right size hlt.le
  have hend : targetEnd (groups * size) (0 * size) ((List.range' 0 groups).map fun group =>
      ⟨name, start group, group * size, size, groups * size⟩) = some ((0 + groups) * size) :=
    targetEnd_range'
  rw [Nat.zero_mul, Nat.zero_add, ← List.range_eq_range'] at hend
  have hhead : (((List.range groups).map fun group : ℕ =>
      (⟨name, start group, group * size, size, groups * size⟩ : WeightRows)).head?.map
        WeightRows.targetRows).getD 0 = groups * size := by
    obtain ⟨n, rfl⟩ := Nat.exists_eq_succ_of_ne_zero hgroups.ne'
    rw [List.range_succ_eq_map, List.map_cons, List.head?_cons]
    rfl
  rw [canonicalWeight, hhead, hsorted]
  rw [if_pos hend]
  simp only [catRows, narrowRows, List.map_map, List.flatMap_map, Function.comp_def,
    List.headD_cons, List.map_const', List.sum_replicate_nat, List.length_range]

/-- The matrices, in the order of the rows of the first group. -/
theorem firstKeys_groupRows (hgroups : 0 < groups) (hqk : q ≠ k) (hqv : q ≠ v) (hkv : k ≠ v) :
    Dict.firstKeys WeightRows.name
      ((List.range groups).flatMap (groupRows q k v queries keys groups)) = [q, k, v] := by
  have hgroup : Dict.firstKeys WeightRows.name (groupRows q k v queries keys groups 0) =
      [q, k, v] := by
    simp [Dict.firstKeys, groupRows, hqk.symm, hqv.symm, hkv.symm]
  obtain ⟨n, hn⟩ := Nat.exists_eq_succ_of_ne_zero hgroups.ne'
  have hfirst : (List.range groups).flatMap (groupRows q k v queries keys groups) =
      groupRows q k v queries keys groups 0 ++ ((List.range n).map Nat.succ).flatMap
        (groupRows q k v queries keys groups) := by
    rw [hn, List.range_succ_eq_map, List.flatMap_cons]
  rw [hfirst, Dict.firstKeys_append, hgroup]
  intro row hrow
  obtain ⟨group, -, hrow⟩ := List.mem_flatMap.1 hrow
  rw [hgroup]
  simp only [groupRows, List.mem_cons, List.not_mem_nil, or_false] at hrow ⊢
  rcases hrow with rfl | rfl | rfl
  · exact .inl rfl
  · exact .inr (.inl rfl)
  · exact .inr (.inr rfl)

/-- The matrices of a fused weight, one after the other. -/
theorem unpackCanonicalRows_groupRows (hqueries : 0 < queries) (hkeys : 0 < keys)
    (hgroups : 0 < groups) (hqk : q ≠ k) (hqv : q ≠ v) (hkv : k ≠ v) (tensor : WeightTensor)
    {columns : ℕ} (hshape : tensor.shape = [groups * (queries + keys + keys), columns]) :
    unpackCanonicalRows tensor
        ((List.range groups).flatMap (groupRows q k v queries keys groups)) =
      .ok [(q, ⟨tensor.dtype, [groups * queries, columns], (List.range groups).flatMap fun group =>
          (narrowRows tensor (group * (queries + keys + keys)) queries).bytes⟩),
        (k, ⟨tensor.dtype, [groups * keys, columns], (List.range groups).flatMap fun group =>
          (narrowRows tensor (group * (queries + keys + keys) + queries) keys).bytes⟩),
        (v, ⟨tensor.dtype, [groups * keys, columns], (List.range groups).flatMap fun group =>
          (narrowRows tensor (group * (queries + keys + keys) + queries + keys) keys).bytes⟩)] := by
  have hend : sourceEnd (groups * (queries + keys + keys)) (0 * (queries + keys + keys))
      ((List.range' 0 groups).flatMap (groupRows q k v queries keys groups)) =
      some ((0 + groups) * (queries + keys + keys)) :=
    sourceEnd_groupRows hqueries hkeys (by rw [Nat.zero_add])
  rw [Nat.zero_mul, Nat.zero_add, ← List.range_eq_range'] at hend
  have hfirst : Dict.firstKeys WeightRows.name
      ((List.range groups).flatMap (groupRows q k v queries keys groups)) = [q, k, v] :=
    firstKeys_groupRows hgroups hqk hqv hkv
  have hne : (List.range groups).flatMap (groupRows q k v queries keys groups) ≠ [] := by
    intro hnil
    rw [hnil] at hfirst
    cases hfirst
  have hcolumns : tensor.shape.getD 1 0 = columns := by
    rw [hshape]
    rfl
  have hpart : ∀ {name : String} (start : ℕ → ℕ) (size : ℕ),
      (∀ group, (groupRows q k v queries keys groups group).filter (·.name = name) =
        [⟨name, start group, group * size, size, groups * size⟩]) →
      canonicalWeight tensor name (((List.range groups).flatMap
        (groupRows q k v queries keys groups)).filter (·.name = name)) =
      .ok (name, ⟨tensor.dtype, [groups * size, columns], (List.range groups).flatMap fun group =>
          (narrowRows tensor (start group) size).bytes⟩) := by
    intro name start size hfilter
    rw [List.filter_flatMap, List.flatMap_congr fun group _ => hfilter group,
      ← List.map_eq_flatMap, canonicalWeight_range hgroups, hcolumns]
  rw [unpackCanonicalRows, if_neg (by rw [hshape]; exact not_or.2 ⟨not_not.2 rfl, hne⟩)]
  dsimp only
  rw [List.Pairwise.insertionSort_eq (pairwise_of_sourceEnd hend).2, hshape, List.headD_cons,
    if_pos hend, hfirst, List.mapM_cons, List.mapM_cons, List.mapM_cons, List.mapM_nil,
    hpart (fun group => group * (queries + keys + keys)) queries fun group => by
      simp [groupRows, hqk.symm, hqv.symm],
    hpart (fun group => group * (queries + keys + keys) + queries) keys fun group => by
      simp [groupRows, hqk, hkv.symm],
    hpart (fun group => group * (queries + keys + keys) + queries + keys) keys fun group => by
      simp [groupRows, hqv, hkv]]
  rfl

end Groups

/-! ### A fused weight -/

/-- A Qwen3 attention shape. -/
structure AttentionConfig.Valid (config : AttentionConfig) : Prop where
  keyValueHeads_pos : 0 < config.numKeyValueHeads
  heads_pos : 0 < config.numAttentionHeads
  headDim_pos : 0 < config.headDim
  dvd : config.numKeyValueHeads ∣ config.numAttentionHeads

theorem AttentionConfig.Valid.queryRows_pos {config : AttentionConfig} (h : config.Valid) :
    0 < config.queryRows :=
  Nat.mul_pos (Nat.div_pos (Nat.le_of_dvd h.heads_pos h.dvd) h.keyValueHeads_pos) h.headDim_pos

/-- The query rows of all groups are those of all heads. -/
theorem AttentionConfig.Valid.groups_mul_queryRows {config : AttentionConfig} (h : config.Valid) :
    config.numKeyValueHeads * config.queryRows = config.numAttentionHeads * config.headDim := by
  rw [AttentionConfig.queryRows, ← Nat.mul_assoc, Nat.mul_div_cancel' h.dvd]

/-- The rows of a fused weight. -/
def fusedRows (config : AttentionConfig) (stem : String) : List WeightRows :=
  (List.range config.numKeyValueHeads).flatMap
    (groupRows (stem ++ "q_proj" ++ ".weight") (stem ++ "k_proj" ++ ".weight")
      (stem ++ "v_proj" ++ ".weight") config.queryRows config.headDim config.numKeyValueHeads)

theorem sum_fusedRows (config : AttentionConfig) (stem : String) :
    ((fusedRows config stem).map WeightRows.length).sum =
      config.numKeyValueHeads * (config.queryRows + config.headDim + config.headDim) := by
  rw [fusedRows, List.map_flatMap, List.flatMap_def, List.sum_flatten, List.map_map,
    Function.comp_def]
  simp only [groupRows, List.map_cons, List.map_nil, List.sum_cons, List.sum_nil, Nat.add_zero,
    ← Nat.add_assoc, List.map_const', List.sum_replicate_nat, List.length_range]

theorem fusedRows_ne_nil {config : AttentionConfig} (h : config.Valid) (stem : String) :
    fusedRows config stem ≠ [] := by
  intro hnil
  have hsum := sum_fusedRows config stem
  rw [hnil] at hsum
  exact (Nat.mul_pos h.keyValueHeads_pos (Nat.add_pos_right _ h.headDim_pos)).ne hsum

theorem adapterRows_fused {config : AttentionConfig} (hconfig : config.Valid) {stem : String}
    (h : endsWith (stem ++ "linear_qkv.weight") "self_attn.linear_qkv.weight" = true) :
    adapterRows config (stem ++ "linear_qkv.weight") = .ok (fusedRows config stem) := by
  rw [adapterRows, if_pos h, canonicalWeightRows, if_neg hconfig.keyValueHeads_pos.ne',
    removeSuffix_append]
  rfl

/-- The query, key and value matrices of an attention layer. -/
structure Projections (config : AttentionConfig) where
  dtype : DType
  columns : ℕ
  query : List UInt8
  key : List UInt8
  value : List UInt8
  length_query : query.length =
    config.numAttentionHeads * config.headDim * (columns * dtype.itemsize)
  length_key : key.length = config.numKeyValueHeads * config.headDim * (columns * dtype.itemsize)
  length_value : value.length =
    config.numKeyValueHeads * config.headDim * (columns * dtype.itemsize)

namespace Projections

variable {config : AttentionConfig}

/-- The rows of one group of a matrix with `size` rows a group. -/
def groupOf (p : Projections config) (matrix : List UInt8) (size group : ℕ) : List UInt8 :=
  let rowBytes := p.columns * p.dtype.itemsize
  FlatBuffer.narrow matrix (group * (size * rowBytes)) (size * rowBytes)

/-- The weight that `InterleaveQKV` of the checkpoint conversion builds of the three. -/
def fused (p : Projections config) : WeightTensor :=
  ⟨p.dtype, [config.numKeyValueHeads * (config.queryRows + config.headDim + config.headDim),
      p.columns],
    (List.range config.numKeyValueHeads).flatMap fun group =>
      p.groupOf p.query config.queryRows group ++
        (p.groupOf p.key config.headDim group ++ p.groupOf p.value config.headDim group)⟩

/-- The three as parameters of a layer. -/
def weights (p : Projections config) (stem : String) : List (String × WeightTensor) :=
  [(stem ++ "q_proj" ++ ".weight",
      ⟨p.dtype, [config.numAttentionHeads * config.headDim, p.columns], p.query⟩),
    (stem ++ "k_proj" ++ ".weight",
      ⟨p.dtype, [config.numKeyValueHeads * config.headDim, p.columns], p.key⟩),
    (stem ++ "v_proj" ++ ".weight",
      ⟨p.dtype, [config.numKeyValueHeads * config.headDim, p.columns], p.value⟩)]

theorem length_groupOf (p : Projections config) {matrix : List UInt8} {size group : ℕ}
    (hmatrix : matrix.length =
      config.numKeyValueHeads * size * (p.columns * p.dtype.itemsize))
    (hgroup : group < config.numKeyValueHeads) :
    (p.groupOf matrix size group).length = size * (p.columns * p.dtype.itemsize) := by
  have hle := Nat.mul_le_mul_right (size * (p.columns * p.dtype.itemsize))
    (Nat.succ_le_of_lt hgroup)
  rw [Nat.succ_mul] at hle
  rw [Nat.mul_assoc] at hmatrix
  exact FlatBuffer.length_narrow (hmatrix ▸ hle)

theorem flatMap_groupOf (p : Projections config) {matrix : List UInt8} {size : ℕ}
    (hmatrix : matrix.length =
      config.numKeyValueHeads * size * (p.columns * p.dtype.itemsize)) :
    (List.range config.numKeyValueHeads).flatMap (p.groupOf matrix size) = matrix := by
  rw [Nat.mul_assoc] at hmatrix
  exact (Intervals.flatMap_range_slice matrix _ _).trans
    (List.take_of_length_le (Nat.le_of_eq hmatrix))

theorem length_groups (hconfig : config.Valid) (p : Projections config) {group : ℕ}
    (hgroup : group < config.numKeyValueHeads) :
    (p.groupOf p.query config.queryRows group).length =
        config.queryRows * (p.columns * p.dtype.itemsize) ∧
      (p.groupOf p.key config.headDim group).length =
        config.headDim * (p.columns * p.dtype.itemsize) ∧
      (p.groupOf p.value config.headDim group).length =
        config.headDim * (p.columns * p.dtype.itemsize) :=
  ⟨p.length_groupOf (by rw [hconfig.groups_mul_queryRows, p.length_query]) hgroup,
    p.length_groupOf p.length_key hgroup, p.length_groupOf p.length_value hgroup⟩

/-- Rows of a group in the fused weight. -/
theorem bytes_narrowRows_fused (hconfig : config.Valid) (p : Projections config) {group : ℕ}
    (hgroup : group < config.numKeyValueHeads) (start length : ℕ)
    (hle : start + length ≤ config.queryRows + config.headDim + config.headDim) :
    (narrowRows p.fused (group * (config.queryRows + config.headDim + config.headDim) + start)
        length).bytes =
      ((p.groupOf p.query config.queryRows group ++ (p.groupOf p.key config.headDim group ++
          p.groupOf p.value config.headDim group)).drop
        (start * (p.columns * p.dtype.itemsize))).take
        (length * (p.columns * p.dtype.itemsize)) := by
  have hlengths : ∀ group < config.numKeyValueHeads, (p.groupOf p.query config.queryRows group ++
      (p.groupOf p.key config.headDim group ++ p.groupOf p.value config.headDim group)).length =
      (config.queryRows + config.headDim + config.headDim) *
        (p.columns * p.dtype.itemsize) := by
    intro group hgroup
    obtain ⟨hq, hk, hv⟩ := p.length_groups hconfig hgroup
    rw [List.length_append, List.length_append, hq, hk, hv, Nat.add_mul, Nat.add_mul,
      Nat.add_assoc]
  have hbytes := Intervals.slice_flatMap_range (o := start * (p.columns * p.dtype.itemsize))
    (m := length * (p.columns * p.dtype.itemsize)) hlengths hgroup
    (by
      rw [← Nat.add_mul]
      exact Nat.mul_le_mul_right _ hle)
  rw [← Nat.mul_assoc group, ← Nat.add_mul] at hbytes
  exact hbytes

/-- The rows that the adapter gives a group are those of the three matrices. -/
theorem narrowRows_group (hconfig : config.Valid) (p : Projections config) {group : ℕ}
    (hgroup : group < config.numKeyValueHeads) :
    (narrowRows p.fused (group * (config.queryRows + config.headDim + config.headDim))
        config.queryRows).bytes = p.groupOf p.query config.queryRows group ∧
      (narrowRows p.fused (group * (config.queryRows + config.headDim + config.headDim) +
        config.queryRows) config.headDim).bytes = p.groupOf p.key config.headDim group ∧
      (narrowRows p.fused (group * (config.queryRows + config.headDim + config.headDim) +
        config.queryRows + config.headDim) config.headDim).bytes =
          p.groupOf p.value config.headDim group := by
  obtain ⟨hq, hk, hv⟩ := p.length_groups hconfig hgroup
  refine ⟨?_, ?_, ?_⟩
  · have h := p.bytes_narrowRows_fused hconfig hgroup 0 config.queryRows (by omega)
    rw [Nat.add_zero, Nat.zero_mul, List.drop_zero, List.take_left' hq] at h
    exact h
  · rw [p.bytes_narrowRows_fused hconfig hgroup config.queryRows config.headDim (by omega),
      List.drop_left' hq, List.take_left' hk]
  · rw [Nat.add_assoc, p.bytes_narrowRows_fused hconfig hgroup
      (config.queryRows + config.headDim) config.headDim (by omega), Nat.add_mul,
      ← List.drop_drop, List.drop_left' hq, List.drop_left' hk,
      List.take_of_length_le (Nat.le_of_eq hv)]

/-- The rows of the adapter take the fused weight apart again. -/
theorem unpackCanonicalRows_fused (hconfig : config.Valid) (p : Projections config)
    (stem : String) :
    unpackCanonicalRows p.fused (fusedRows config stem) = .ok (p.weights stem) := by
  have hquery : p.query.length =
      config.numKeyValueHeads * config.queryRows * (p.columns * p.dtype.itemsize) := by
    rw [hconfig.groups_mul_queryRows, p.length_query]
  have hparts : ∀ group ∈ List.range config.numKeyValueHeads, _ :=
    fun group hgroup => p.narrowRows_group hconfig (List.mem_range.1 hgroup)
  rw [fusedRows, unpackCanonicalRows_groupRows hconfig.queryRows_pos hconfig.headDim_pos
    hconfig.keyValueHeads_pos (by simp [String.append_left_inj, String.append_right_inj])
    (by simp [String.append_left_inj, String.append_right_inj])
    (by simp [String.append_left_inj, String.append_right_inj]) p.fused rfl,
    List.flatMap_congr fun group hgroup => (hparts group hgroup).1,
    List.flatMap_congr fun group hgroup => (hparts group hgroup).2.1,
    List.flatMap_congr fun group hgroup => (hparts group hgroup).2.2, p.flatMap_groupOf hquery,
    p.flatMap_groupOf p.length_key, p.flatMap_groupOf p.length_value,
    hconfig.groups_mul_queryRows]
  rfl

/-- Every weight of the right shape is fused of three matrices. -/
theorem exists_fused_eq (hconfig : config.Valid) {tensor : WeightTensor} {columns : ℕ}
    (hshape : tensor.shape =
      [config.numKeyValueHeads * (config.queryRows + config.headDim + config.headDim), columns])
    (hwell : tensor.WellFormed) : ∃ p : Projections config, p.fused = tensor := by
  obtain ⟨dtype, shape, bytes⟩ := tensor
  obtain rfl : shape = _ := hshape
  have hlength : bytes.length = config.numKeyValueHeads *
      (config.queryRows + config.headDim + config.headDim) * (columns * dtype.itemsize) := by
    rw [WeightTensor.WellFormed] at hwell
    simpa [Nat.mul_assoc] using hwell
  -- the rows from `start` on in every group
  let part (start size group : ℕ) : List UInt8 := FlatBuffer.narrow bytes
    ((group * (config.queryRows + config.headDim + config.headDim) + start) *
      (columns * dtype.itemsize)) (size * (columns * dtype.itemsize))
  have hpart : ∀ start size, start + size ≤ config.queryRows + config.headDim + config.headDim →
      ∀ group < config.numKeyValueHeads,
        (part start size group).length = size * (columns * dtype.itemsize) := by
    intro start size hle group hgroup
    refine FlatBuffer.length_narrow ?_
    rw [hlength, ← Nat.add_mul]
    refine Nat.mul_le_mul_right _ ?_
    calc group * (config.queryRows + config.headDim + config.headDim) + start + size
        ≤ (group + 1) * (config.queryRows + config.headDim + config.headDim) := by
          rw [Nat.succ_mul]
          omega
      _ ≤ _ := Nat.mul_le_mul_right _ hgroup
  have hmatrix : ∀ start size, start + size ≤ config.queryRows + config.headDim + config.headDim →
      ((List.range config.numKeyValueHeads).flatMap (part start size)).length =
        config.numKeyValueHeads * size * (columns * dtype.itemsize) := by
    intro start size hle
    rw [Intervals.length_flatMap_range (hpart start size hle), Nat.mul_assoc]
  refine ⟨⟨dtype, columns, (List.range config.numKeyValueHeads).flatMap (part 0 config.queryRows),
    (List.range config.numKeyValueHeads).flatMap (part config.queryRows config.headDim),
    (List.range config.numKeyValueHeads).flatMap
      (part (config.queryRows + config.headDim) config.headDim),
    ?_, hmatrix _ _ (by omega), hmatrix _ _ (by omega)⟩, ?_⟩
  · rw [← hconfig.groups_mul_queryRows]
    exact hmatrix 0 _ (by omega)
  refine congrArg (WeightTensor.mk dtype _) ?_
  have hgroup : ∀ group ∈ List.range config.numKeyValueHeads, ∀ start size,
      start + size ≤ config.queryRows + config.headDim + config.headDim →
      FlatBuffer.narrow ((List.range config.numKeyValueHeads).flatMap (part start size))
        (group * (size * (columns * dtype.itemsize))) (size * (columns * dtype.itemsize)) =
        part start size group := fun group hgroup start size hle =>
    FlatBuffer.narrow_flatMap_range (hpart start size hle) (List.mem_range.1 hgroup)
  have hblock : ∀ group, part 0 config.queryRows group ++
      (part config.queryRows config.headDim group ++
        part (config.queryRows + config.headDim) config.headDim group) =
      FlatBuffer.narrow bytes (group * ((config.queryRows + config.headDim + config.headDim) *
        (columns * dtype.itemsize))) ((config.queryRows + config.headDim + config.headDim) *
        (columns * dtype.itemsize)) := by
    intro group
    rw [Nat.add_mul _ _ (columns * dtype.itemsize), Nat.add_mul _ _ (columns * dtype.itemsize),
      FlatBuffer.narrow_add, FlatBuffer.narrow_add, List.append_assoc]
    simp only [part, Nat.add_mul, Nat.mul_add, Nat.mul_assoc, Nat.add_assoc, Nat.zero_mul,
      Nat.add_zero]
  refine (List.flatMap_congr fun group hmem => ?_).trans
    ((Intervals.flatMap_range_slice bytes ((config.queryRows + config.headDim + config.headDim) *
      (columns * dtype.itemsize)) config.numKeyValueHeads).trans
      (List.take_of_length_le (by rw [hlength, Nat.mul_assoc])))
  exact (congrArg₂ (· ++ ·) (hgroup group hmem 0 config.queryRows (by omega))
    (congrArg₂ (· ++ ·) (hgroup group hmem config.queryRows config.headDim (by omega))
      (hgroup group hmem (config.queryRows + config.headDim) config.headDim (by omega)))).trans
    (hblock group)

end Projections

/-! ### The buckets -/

/-- What a published parameter stands for: itself, or the three it was fused of. -/
inductive Canonical (config : AttentionConfig) :
    String × WeightTensor → List (String × WeightTensor) → Prop
  | plain {name : String} {tensor : WeightTensor}
      (h : endsWith name "self_attn.linear_qkv.weight" = false) :
      Canonical config (name, tensor) [(name, tensor)]
  | fused {stem : String} (p : Projections config)
      (h : endsWith (stem ++ "linear_qkv.weight") "self_attn.linear_qkv.weight" = true) :
      Canonical config (stem ++ "linear_qkv.weight", p.fused) (p.weights stem)

/-- Every parameter stands for something, if a fused weight has the shape of the configuration. -/
theorem exists_canonical {config : AttentionConfig} (hconfig : config.Valid)
    {item : String × WeightTensor} (hwell : item.2.WellFormed)
    (hshape : endsWith item.1 "self_attn.linear_qkv.weight" = true → ∃ columns, item.2.shape =
      [config.numKeyValueHeads * (config.queryRows + config.headDim + config.headDim),
        columns]) : ∃ group, Canonical config item group := by
  obtain ⟨name, tensor⟩ := item
  cases hname : endsWith name "self_attn.linear_qkv.weight" with
  | false => exact ⟨_, .plain hname⟩
  | true =>
    obtain ⟨columns, hcolumns⟩ := hshape hname
    obtain ⟨p, rfl⟩ := Projections.exists_fused_eq hconfig hcolumns hwell
    obtain ⟨front, hfront⟩ := List.isSuffixOf_iff_suffix.1 hname
    have hstem : name = String.ofList (front ++ "self_attn.".toList) ++ "linear_qkv.weight" := by
      rw [← String.toList_inj, String.toList_append, String.toList_ofList, ← hfront,
        List.append_assoc]
      rfl
    rw [hstem] at hname ⊢
    exact ⟨_, .fused p hname⟩

/-- What a worker gets for an entry whose bytes are those of the tensor. -/
theorem unpack_canonical {config : AttentionConfig} (hconfig : config.Valid)
    {item : String × WeightTensor} {group : List (String × WeightTensor)}
    (hcanonical : Canonical config item group) (offset : ℕ) :
    ∃ metadata, packedMetadataEntry config
        ⟨item.1, item.2.dtype, item.2.shape, offset, item.2.shape.prod * item.2.dtype.itemsize,
          none⟩ = .ok metadata ∧
      ∀ packed : List UInt8, item.2.dtype.itemsize ∣ offset →
        offset + item.2.shape.prod * item.2.dtype.itemsize ≤ packed.length →
        FlatBuffer.narrow packed offset (item.2.shape.prod * item.2.dtype.itemsize) = item.2.bytes →
        unpackWeight packed metadata = .ok group := by
  cases hcanonical with
  | @plain name tensor h =>
    refine ⟨⟨name, tensor.dtype, tensor.shape, offset, tensor.shape.prod * tensor.dtype.itemsize,
      none⟩, ?_, ?_⟩
    · rw [packedMetadataEntry, adapterRows, h, if_neg Bool.false_ne_true]
      rfl
    · intro packed hdvd hfits hbytes
      rw [unpackWeight, if_neg (not_not.2 rfl), if_neg (Nat.not_lt.2 hfits),
        if_neg (not_not.2 (Nat.mod_eq_zero_of_dvd hdvd))]
      dsimp only at hbytes ⊢
      rw [hbytes]
  | @fused stem p h =>
    refine ⟨⟨stem ++ "linear_qkv.weight", p.fused.dtype, p.fused.shape, offset,
      p.fused.shape.prod * p.fused.dtype.itemsize, some (fusedRows config stem)⟩, ?_, ?_⟩
    · rw [packedMetadataEntry, adapterRows_fused hconfig h]
      change (if fusedRows config stem = [] then _ else if _ then _ else _) = _
      rw [if_neg (fusedRows_ne_nil hconfig stem)]
      exact if_neg (not_or.2 ⟨not_not.2 rfl, not_not.2 (sum_fusedRows config stem)⟩)
    · intro packed hdvd hfits hbytes
      rw [unpackWeight, if_neg (not_not.2 rfl), if_neg (Nat.not_lt.2 hfits),
        if_neg (not_not.2 (Nat.mod_eq_zero_of_dvd hdvd))]
      dsimp only at hbytes ⊢
      rw [hbytes]
      exact p.unpackCanonicalRows_fused hconfig stem

/-- What the packed buffer holds for an entry. -/
def HoldsBytes (packed : List UInt8) (entry : PackedWeight) (tensor : WeightTensor) : Prop :=
  entry.elementSize ∣ entry.bufferOffset ∧
    entry.bufferOffset + entry.numBytes ≤ packed.length ∧
    FlatBuffer.narrow packed entry.bufferOffset entry.numBytes = tensor.bytes

/-- The entry of a parameter that has elements. -/
def entryOf (item : String × WeightTensor) : PackedWeight :=
  ⟨item.1, item.2.dtype, item.2.shape, item.2.dtype.itemsize, 0⟩

theorem eq_of_unplaced_eq {entry : PackedWeight} {item : String × WeightTensor}
    (h : entry.unplaced = entryOf item) : entry = (entryOf item).atOffset entry.bufferOffset := by
  rw [← h]
  rfl

/-- The metadata of a bucket, and what the workers unpack with it. -/
theorem exists_metadata {config : AttentionConfig} (hconfig : config.Valid)
    {entries : List PackedWeight}
    {pairs : List ((String × WeightTensor) × List (String × WeightTensor))}
    (h : List.Forall₂ (fun e p => e.unplaced = entryOf p.1) entries pairs)
    (hpairs : ∀ p ∈ pairs, Canonical config p.1 p.2) :
    ∃ metadata, packedMetadata config (entries.map PackedWeight.workerMetadata) = .ok metadata ∧
      ∀ packed, List.Forall₂ (fun e p => HoldsBytes packed e p.1.2) entries pairs →
        List.Forall₂ (fun entry group => unpackWeight packed entry = .ok group) metadata
          (pairs.map Prod.snd) := by
  induction h with
  | nil => exact ⟨[], rfl, fun _ _ => .nil⟩
  | @cons e p entries pairs hentry _ ih =>
    obtain ⟨metadata, hmetadata, hunpack⟩ := ih fun p hp => hpairs p (List.mem_cons_of_mem _ hp)
    obtain ⟨first, hfirst, hgroup⟩ :=
      unpack_canonical hconfig (hpairs p List.mem_cons_self) e.bufferOffset
    have hworker : packedMetadataEntry config e.workerMetadata = .ok first := by
      rw [eq_of_unplaced_eq hentry]
      exact hfirst
    refine ⟨first :: metadata, ?_, fun packed hpacked => ?_⟩
    · rw [packedMetadata] at hmetadata ⊢
      rw [List.map_cons, List.mapM_cons, hworker, hmetadata]
      rfl
    · obtain ⟨⟨hdvd, hfits, hbytes⟩, hrest⟩ := List.forall₂_cons.1 hpacked
      refine .cons ?_ (hunpack packed hrest)
      rw [eq_of_unplaced_eq hentry] at hdvd hfits hbytes
      exact hgroup packed hdvd hfits hbytes

/-- What a bucket delivers, whatever its buffer held before. -/
def Delivers (config : AttentionConfig) (dict : StateDict) (bucket : PackedWeightBucket)
    (weights : List (String × WeightTensor)) : Prop :=
  ∀ (producerRank : ℕ) (empty : ℕ → UInt8), ∃ packed metadata,
    materializePackedWeightBucket dict bucket producerRank producerRank empty =
        .ok (some packed) ∧
      packedMetadata config (bucket.entries.map PackedWeight.workerMetadata) = .ok metadata ∧
      unpackPackedWeights packed metadata = .ok weights

theorem sourceTensor_of_mem {dict : StateDict} {item : String × WeightTensor}
    (hitem : item ∈ dict.items) {e : PackedWeight} (h : e.unplaced = entryOf item) :
    sourceTensor dict e = .ok item.2 := by
  have hlookup : dict.items.lookup ((entryOf item).atOffset e.bufferOffset).name = some item.2 :=
    (Dict.lookup_eq_some_iff dict.nodup).2 hitem
  rw [eq_of_unplaced_eq h, sourceTensor, hlookup]
  exact if_neg (by simp [entryOf, PackedWeight.atOffset])

theorem delivers_of_layout {config : AttentionConfig} (hconfig : config.Valid) {dict : StateDict}
    {limit : ℕ} {bucket : PackedWeightBucket} (hlayout : BucketLayout limit bucket)
    {pairs : List ((String × WeightTensor) × List (String × WeightTensor))}
    (h : List.Forall₂ (fun e p => e.unplaced = entryOf p.1) bucket.entries pairs)
    (hpairs : ∀ p ∈ pairs, p.1 ∈ dict.items ∧ Canonical config p.1 p.2) :
    Delivers config dict bucket (pairs.map Prod.snd).flatten := by
  intro producerRank empty
  obtain ⟨metadata, hmetadata, hunpack⟩ := exists_metadata hconfig h fun p hp => (hpairs p hp).2
  have htensors : bucket.entries.mapM (sourceTensor dict) = .ok (pairs.map fun p => p.1.2) := by
    refine ExceptList.mapM_of_forall₂ (List.forall₂_map_right_iff.2 ?_)
    refine List.forall₂_iff_zip.2 ⟨h.length_eq, fun {e p} hmem => ?_⟩
    exact sourceTensor_of_mem (hpairs p (List.of_mem_zip hmem).2).1
      ((List.forall₂_iff_zip.1 h).2 hmem)
  have hfst : (bucket.entries.zip (pairs.map fun p => p.1.2)).map Prod.fst = bucket.entries :=
    List.map_fst_zip (by rw [List.length_map, h.length_eq])
  have hmem : ∀ q ∈ bucket.entries.zip (pairs.map fun p => p.1.2), q.1 ∈ bucket.entries ∧
      q.2.bytes.length = q.1.numBytes := by
    intro q hq
    rw [List.zip_map_right] at hq
    obtain ⟨⟨e, p⟩, hep, rfl⟩ := List.mem_map.1 hq
    have hunplaced : e.unplaced = entryOf p.1 := (List.forall₂_iff_zip.1 h).2 hep
    refine ⟨(List.of_mem_zip hep).1, ?_⟩
    have hwell := dict.wellFormed p.1 (hpairs p (List.of_mem_zip hep).2).1
    change p.1.2.bytes.length = e.numBytes
    rw [eq_of_unplaced_eq hunplaced]
    exact hwell
  have hsize : ((List.range bucket.totalBytes).map empty).length = bucket.totalBytes := by
    rw [List.length_map, List.length_range]
  obtain ⟨packed, hpacked, hlength, hslices, -⟩ :=
    packTensors_ok ((List.range bucket.totalBytes).map empty)
      (fun q hq => (hmem q hq).2)
      (fun q hq => by
        rw [hsize]
        exact hlayout.fits q.1 (hmem q hq).1)
      (List.pairwise_map.1 (hfst ▸ hlayout.disjoint))
  refine ⟨packed, metadata, ?_, hmetadata, ?_⟩
  · rw [materializePackedWeightBucket, htensors]
    change (if producerRank ≠ producerRank then _ else
      packTensors _ (bucket.entries.zip (pairs.map fun p => p.1.2)) >>= _) = _
    rw [if_neg (not_not.2 rfl), hpacked]
    rfl
  · have hholds : List.Forall₂ (fun e p => HoldsBytes packed e p.1.2) bucket.entries pairs := by
      refine List.forall₂_iff_zip.2 ⟨h.length_eq, fun {e p} hep => ?_⟩
      have hzip : (e, p.1.2) ∈ bucket.entries.zip (pairs.map fun p => p.1.2) := by
        rw [List.zip_map_right]
        exact List.mem_map.2 ⟨(e, p), hep, rfl⟩
      have hentry := (hmem _ hzip).1
      refine ⟨hlayout.aligned e hentry, ?_, hslices _ hzip⟩
      rw [hlength, hsize]
      exact hlayout.fits e hentry
    rw [unpackPackedWeights, ExceptList.mapM_of_forall₂ (hunpack packed hholds)]
    rfl

/-! ### The state dict -/

theorem build_ok {dict : StateDict} {bucketSizeBytes : ℤ} {skipNames : List String}
    (hsize : 0 < bucketSizeBytes) (hne : dict.published skipNames ≠ [])
    (hshape : ∀ item ∈ dict.published skipNames,
      item.2.shape ≠ [] ∧ ∀ size ∈ item.2.shape, size ≠ 0) :
    buildPackedWeightBuckets dict bucketSizeBytes skipNames =
      .ok (((dict.published skipNames).map entryOf).foldl
        (BucketState.addEntry bucketSizeBytes.toNat) ⟨[], [], 0⟩).finish := by
  have hentries : (dict.published skipNames).mapM packedEntry =
      .ok ((dict.published skipNames).map entryOf) := by
    refine ExceptList.mapM_of_forall fun item hitem => if_neg ?_
    rintro (hnil | ⟨size, hmem, hzero⟩)
    · exact (hshape item hitem).1 hnil
    · exact (hshape item hitem).2 size hmem hzero
  rw [buildPackedWeightBuckets, if_neg (Int.not_le.2 hsize), hentries]
  exact if_neg (List.map_eq_nil_iff.not.2 hne)

end HyperParallel.WeightSync

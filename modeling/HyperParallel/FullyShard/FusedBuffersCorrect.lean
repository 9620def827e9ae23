import HyperParallel.FullyShard.FusedBuffers

/-!
# The fused buffers are exact

* `fusedInput_eq`, `gathered_eq`: both paths give the same input;
* `copyOut_gathered`: every buffer is the full tensor `FusedParam.full`;
* `reduceScatterCopyIn_eq`, `reduceScatter_eq`: the packed gradients, and their sums;
* `fused_packing_exact`: both together.
-/

namespace HyperParallel.FullyShard

variable {α : Type}

/-! ### Rows and columns -/

section Rows

variable {worldSize size offset : ℕ} {f front back : ℕ → List α}

/-- Rows of one length. -/
theorem not_exists_row (hf : ∀ r < worldSize, (f r).length = size) :
    ¬ ∃ row ∈ (List.range worldSize).map f, row.length ≠ size := by
  rintro ⟨row, hrow, hne⟩
  obtain ⟨r, hr, rfl⟩ := List.mem_map.1 hrow
  exact hne (hf r (List.mem_range.1 hr))

theorem viewRows_flatMap (hf : ∀ r < worldSize, (f r).length = size) (hworld : 0 < worldSize) :
    viewRows worldSize ((List.range worldSize).flatMap f) = (List.range worldSize).map f := by
  rw [viewRows, Intervals.length_flatMap_range hf, Nat.mul_div_cancel_left size hworld]
  exact List.map_congr_left fun r hr =>
    FlatBuffer.narrow_flatMap_range hf (List.mem_range.1 hr)

/-- The columns behind the front of every row. -/
theorem narrowColumns_front (hfront : ∀ r < worldSize, (front r).length = offset)
    (hf : ∀ r < worldSize, (f r).length = size) :
    narrowColumns ((List.range worldSize).map fun r => front r ++ (f r ++ back r)) offset size =
      (List.range worldSize).map f := by
  rw [narrowColumns, List.map_map]
  refine List.map_congr_left fun r hr => ?_
  have hr := List.mem_range.1 hr
  change FlatBuffer.narrow (front r ++ (f r ++ back r)) offset size = f r
  rw [← hf r hr]
  exact FlatBuffer.narrow_append (hfront r hr)

variable {ι : Type} {d : ι → ℕ → List α} {numel : ι → ℕ} {l : List ι}

theorem splitWithSizes_eq (hd : ∀ x ∈ l, ∀ r < worldSize, (d x r).length = numel x) :
    splitWithSizes ((List.range worldSize).map fun r => l.flatMap (d · r)) (l.map numel) =
      some (l.map fun x => (List.range worldSize).flatMap (d x)) := by
  have hlength : ∀ r < worldSize, (l.flatMap (d · r)).length = (l.map numel).sum := by
    intro r hr
    rw [List.length_flatMap, List.map_congr_left fun x hx => hd x hx r hr]
  have hcolumns : ∀ (l : List ι) (front : ℕ → List α) (offset : ℕ),
      (∀ x ∈ l, ∀ r < worldSize, (d x r).length = numel x) →
      (∀ r < worldSize, (front r).length = offset) →
      ((FlatBuffer.offsets offset (l.map numel)).zip (l.map numel)).map (fun place =>
        (narrowColumns ((List.range worldSize).map fun r => front r ++ l.flatMap (d · r))
          place.1 place.2).flatten) =
      l.map fun x => (List.range worldSize).flatMap (d x) := by
    intro l
    induction l with
    | nil => exact fun _ _ _ _ => rfl
    | cons x l ih =>
      intro front offset hd hfront
      have hx := hd x List.mem_cons_self
      have hrest := ih (fun r => front r ++ d x r) (offset + numel x)
        (fun y hy => hd y (List.mem_cons_of_mem _ hy))
        (fun r hr => by rw [List.length_append, hfront r hr, hx r hr])
      simp only [List.append_assoc] at hrest
      simp only [List.map_cons, FlatBuffer.offsets, List.zip_cons_cons, List.flatMap_cons]
      rw [narrowColumns_front hfront hx, hrest, List.flatMap_def]
  rw [splitWithSizes, if_neg (not_exists_row hlength)]
  exact congrArg some (hcolumns l (fun _ => []) 0 hd fun _ _ => rfl)

end Rows

/-! ### What is gathered -/

section AllGather

variable [Zero α] {worldSize : ℕ} {cast : ℕ → α → α}

namespace FusedParam

variable (p : FusedParam α worldSize)

/-- The padded shard of a rank in the dtype of the bucket. -/
def commShard (cast : ℕ → α → α) (rank : ℕ) : Tensor α :=
  Tensor.ofEntries p.paddedShardedParamSize fun idx =>
    cast p.storageDtype ((p.paddedShard rank).entry idx)

/-- The padded shard is the shard of the rank, followed by zeros. -/
theorem entry_commShard (rank : ℕ) {idx : List ℕ} (h : Valid p.paddedShardedParamSize idx) :
    (p.commShard cast rank).entry idx = cast p.storageDtype
      (if Valid (p.shard rank).shape idx then (p.shard rank).entry idx else 0) := by
  rw [commShard, Tensor.entry_ofEntries _ h, paddedShard, Tensor.entry_ofEntries _ h]
  split_ifs with hidx
  · rfl
  · rw [(p.shard rank).outside idx hidx]

/-- The (padded) full tensor: the shards of all ranks along the dim of the parameter. -/
def full (cast : ℕ → α → α) : Tensor α :=
  Tensor.joinAlong worldSize (p.commShard cast) p.paddedShardedParamSize p.dim

theorem dim_lt_padded : p.dim < p.paddedShardedParamSize.length := by
  rw [paddedShardedParamSize, List.length_set]
  exact p.dim_lt

theorem exists_padded_eq_cons : ∃ size rest, p.paddedShardedParamSize = size :: rest :=
  List.exists_cons_of_length_pos (Nat.zero_lt_of_lt p.dim_lt_padded)

theorem shardedParamData_eq (rank : ℕ) : p.shardedParamData rank = (p.paddedShard rank).data := by
  rw [shardedParamData]
  split_ifs with hshape
  · have heq : p.shard rank = p.paddedShard rank := Tensor.eq_ofEntries hshape fun _ _ => rfl
    rw [← heq]
  · rfl

theorem allGatherInput_eq (rank : ℕ) :
    p.allGatherInput cast rank = (p.commShard cast rank).data := by
  rw [allGatherInput, shardedParamData_eq]
  exact (Tensor.data_ofEntries_map (p.paddedShard rank) (cast p.storageDtype)).symm

theorem length_allGatherInput (rank : ℕ) : (p.allGatherInput cast rank).length = p.numel := by
  rw [allGatherInput_eq, Tensor.length_data]
  rfl

/-- The chunks of the full tensor along the dim of the parameter are the shards. -/
theorem chunkAlong_full (hworld : 0 < worldSize) :
    (p.full cast).chunkAlong worldSize p.dim =
      (List.range worldSize).map (p.commShard cast) :=
  Tensor.chunkAlong_joinAlong hworld p.dim_lt_padded fun _ _ => rfl

end FusedParam

variable {params : List (FusedParam α worldSize)} {rank : ℕ}

omit [Zero α] in
theorem allGatherCopyIn_fst {inputs : List (List α)} {output : List α} {numel : ℕ}
    (hnumel : inputs.flatten.length = numel) (houtput : output.length = numel * worldSize)
    (hrank : rank < worldSize) :
    (allGatherCopyIn inputs output (inputs.map List.length) numel rank).map Prod.fst =
      some inputs.flatten := by
  have hbound : numel * rank + numel ≤ output.length := by
    rw [houtput, ← Nat.mul_succ]
    exact Nat.mul_le_mul_left numel hrank
  have hfront : (output.take (numel * rank)).length = numel * rank :=
    List.length_take_of_le (by omega)
  have hsum : (inputs.map List.length).sum = numel := by
    rw [← List.length_flatten, hnumel]
  rw [allGatherCopyIn, if_neg (by
    rintro (hlt | hne | hne)
    · omega
    · exact hne hsum
    · exact hne rfl)]
  dsimp only
  conv_lhs => rw [← List.take_append_drop (numel * rank) output]
  rw [FlatBuffer.writeAll_append hfront, Option.map_some]
  conv_lhs => rw [← hnumel]
  rw [FlatBuffer.narrow_append (by rw [hnumel]; exact hfront)]

theorem initFlatParamBuffer_eq_some {empty : ℕ → α} {buffer : List α}
    (h : initFlatParamBuffer params rank empty = some buffer) :
    buffer = params.flatMap (FusedParam.shardedParamData · rank) ∧
      ∀ p ∈ params, p.storageDtype = (params.head?.map FusedParam.storageDtype).getD 0 := by
  rw [initFlatParamBuffer] at h
  split_ifs at h with hmixed
  push Not at hmixed
  constructor
  · rw [← Option.some.inj h, ← List.nil_append ((List.range _).map empty),
      FlatBuffer.writeAll_append List.length_nil, List.nil_append, List.drop_eq_nil_of_le,
      List.append_nil, List.flatMap_def]
    rw [List.length_map, List.length_range, List.length_flatten]
  · intro p hp
    cases hhead : params.head? with
    | none =>
      rw [List.head?_eq_none_iff.1 hhead] at hp
      exact absurd hp List.not_mem_nil
    | some q =>
      exact hmixed.1 p hp q hhead

/-- On both paths a rank sends its shards, one behind the other. -/
theorem fusedInput_eq (zeroCopy : Bool) (empty : ℕ → α) (hrank : rank < worldSize) :
    fusedInput zeroCopy cast params rank empty =
      some (params.flatMap (FusedParam.allGatherInput · cast rank)) := by
  have hlength : (params.flatMap (FusedParam.allGatherInput · cast rank)).length =
      totalInputNumel params := by
    rw [List.length_flatMap, totalInputNumel]
    simp only [FusedParam.length_allGatherInput]
  rw [fusedInput]
  dsimp only
  cases hflat : (if zeroCopy then initFlatParamBuffer params rank empty else none) with
  | none =>
    dsimp only
    rw [allGatherCopyIn_fst (by rw [← List.flatMap_def]; exact hlength)
      (by rw [List.length_map, List.length_range]) hrank, ← List.flatMap_def]
  | some buffer =>
    obtain ⟨-, hinit⟩ : zeroCopy = true ∧ initFlatParamBuffer params rank empty = some buffer := by
      split_ifs at hflat with hzero
      exact ⟨hzero, hflat⟩
    obtain ⟨rfl, hdtype⟩ := initFlatParamBuffer_eq_some hinit
    dsimp only
    rw [List.map_flatMap]
    refine congrArg some (List.flatMap_congr fun p hp => ?_)
    rw [← hdtype p hp]
    rfl

theorem gathered_eq (zeroCopy : ℕ → Bool) (empty : ℕ → ℕ → α) :
    gathered zeroCopy cast params empty = some ((List.range worldSize).flatMap fun rank =>
      params.flatMap (FusedParam.allGatherInput · cast rank)) := by
  have hmap : ∀ ranks : List ℕ, (∀ rank ∈ ranks, rank < worldSize) →
      (ranks.mapM fun rank => fusedInput (zeroCopy rank) cast params rank (empty rank)) =
        some (ranks.map fun rank => params.flatMap (FusedParam.allGatherInput · cast rank)) := by
    intro ranks
    induction ranks with
    | nil => exact fun _ => rfl
    | cons rank ranks ih =>
      intro h
      rw [List.mapM_cons, fusedInput_eq _ _ (h rank List.mem_cons_self),
        ih fun rank hrank => h rank (List.mem_cons_of_mem _ hrank)]
      rfl
  rw [gathered, hmap _ fun rank hrank => List.mem_range.1 hrank, Option.map_some, List.flatMap_def]

end AllGather

/-! ### The unsharded buffers -/

section CopyOut

variable [Zero α] {worldSize : ℕ} {cast : ℕ → α → α}

theorem shardSizeOf_of_dvd {origSize : List ℕ} {dim rank m : ℕ} (hrank : rank < worldSize)
    (hsize : origSize.getD dim 0 = worldSize * m) :
    shardSizeOf origSize dim worldSize rank = origSize.set dim m := by
  have hmin : min m (worldSize * m - rank * m) = m := by
    rw [← Nat.sub_mul]
    exact min_eq_left (Nat.le_mul_of_pos_left m (Nat.sub_pos_of_lt hrank))
  rw [shardSizeOf, hsize, chunkSize, ceil_div_mul m (Nat.zero_lt_of_lt hrank), hmin]

namespace FusedParam

variable (p : FusedParam α worldSize)

theorem padded_of_dvd (hworld : 0 < worldSize) {m : ℕ}
    (hsize : p.origSize.getD p.dim 0 = worldSize * m) :
    p.paddedShardedParamSize = p.origSize.set p.dim m := by
  rw [paddedShardedParamSize, hsize, chunkSize, ceil_div_mul m hworld]

/-- Where the size divides evenly, the full tensor has the size of the parameter. -/
theorem shape_full_of_ne (hworld : 0 < worldSize) (hdim : p.dim ≠ 0) :
    (p.full cast).shape = p.origSize := by
  obtain ⟨m, hsize⟩ := p.even hdim
  rw [full, Tensor.joinAlong, Tensor.shape_ofEntries, p.padded_of_dvd hworld hsize,
    getD_set_self p.dim_lt, List.set_set, ← hsize, set_getD_self p.dim_lt]

/-- The columns of a parameter, row by row, are its shards along the first axis. -/
theorem flatMap_allGatherInput : (List.range worldSize).flatMap (p.allGatherInput cast) =
    (Tensor.joinAlong worldSize (p.commShard cast) p.paddedShardedParamSize 0).data := by
  obtain ⟨size, rest, hpadded⟩ := p.exists_padded_eq_cons
  rw [List.flatMap_congr fun rank _ => p.allGatherInput_eq rank, hpadded]
  exact Tensor.flatMap_data fun _ _ => hpadded

theorem unpackColumns_eq (hdim : p.dim ≠ 0) {rank : ℕ} (hrank : rank < worldSize) :
    unpackColumns p rank ((List.range worldSize).flatMap (p.allGatherInput cast)) =
      some (p.full cast).data := by
  have hworld : 0 < worldSize := Nat.zero_lt_of_lt hrank
  obtain ⟨m, hsize⟩ := p.even hdim
  have hshard : shardSizeOf p.origSize p.dim worldSize rank = p.paddedShardedParamSize := by
    rw [shardSizeOf_of_dvd hrank hsize, p.padded_of_dvd hworld hsize]
  have hpos : 0 < p.paddedShardedParamSize.length := Nat.zero_lt_of_lt p.dim_lt_padded
  have hpacked : p.paddedShardedParamSize.set 0 (p.paddedShardedParamSize.getD 0 0 * worldSize) =
      (Tensor.joinAlong worldSize (p.commShard cast) p.paddedShardedParamSize 0).shape := by
    rw [Tensor.joinAlong, Tensor.shape_ofEntries, Nat.mul_comm]
  have hchunks := Tensor.chunkAlong_joinAlong hworld hpos
    (fun k (_ : k < worldSize) => (rfl : (p.commShard cast k).shape = p.paddedShardedParamSize))
  have hcat : Tensor.catAlong ((List.range worldSize).map (p.commShard cast)) p.dim =
      some (p.full cast) :=
    Tensor.catAlong_range hworld p.dim_lt_padded fun _ _ => rfl
  rw [unpackColumns, hshard, hpacked, p.flatMap_allGatherInput, Tensor.ofData_data,
    Option.bind_eq_bind, Option.bind_some, hchunks, hcat, Option.bind_some,
    if_pos (p.shape_full_of_ne hworld hdim)]

theorem flatMap_of_dim_zero (hdim : p.dim = 0) :
    (List.range worldSize).flatMap (p.allGatherInput cast) = (p.full cast).data := by
  rw [p.flatMap_allGatherInput, full, hdim]

end FusedParam

variable {params : List (FusedParam α worldSize)} {rank : ℕ}

/-- The mixed path, behind the columns that are done. -/
theorem copyColumns_eq (hrank : rank < worldSize) (front : ℕ → List α) (offset : ℕ)
    (hfront : ∀ r < worldSize, (front r).length = offset) :
    copyColumns rank ((List.range worldSize).map fun r =>
        front r ++ params.flatMap (FusedParam.allGatherInput · cast r)) offset params =
      some (params.map fun p => (p.full cast).data) := by
  induction params generalizing front offset with
  | nil =>
    simp only [List.flatMap_nil, List.append_nil]
    rw [copyColumns, if_neg (not_exists_row hfront)]
    rfl
  | cons p params ih =>
    have hlength : ∀ r < worldSize, (p.allGatherInput cast r).length = p.numel :=
      fun r _ => p.length_allGatherInput r
    have hrest := ih (fun r => front r ++ p.allGatherInput cast r) (offset + p.numel)
      (fun r hr => by rw [List.length_append, hfront r hr, hlength r hr])
    simp only [List.append_assoc] at hrest
    simp only [List.flatMap_cons]
    rw [copyColumns, narrowColumns_front hfront hlength, ← List.flatMap_def, hrest]
    by_cases hdim : p.dim = 0
    · rw [if_pos hdim, p.flatMap_of_dim_zero hdim]
      rfl
    · rw [if_neg hdim, p.unpackColumns_eq hdim hrank]
      rfl

/-- The unsharded buffers of a rank are the full tensors. -/
theorem copyOut_gathered (hrank : rank < worldSize) :
    copyOut params rank ((List.range worldSize).flatMap fun rank =>
        params.flatMap (FusedParam.allGatherInput · cast rank)) =
      some (params.map fun p => (p.full cast).data) := by
  have hlength : ∀ r < worldSize, (params.flatMap (FusedParam.allGatherInput · cast r)).length =
      totalInputNumel params := by
    intro r _
    rw [List.length_flatMap, totalInputNumel]
    simp only [FusedParam.length_allGatherInput]
  rw [copyOut, viewRows_flatMap hlength (Nat.zero_lt_of_lt hrank)]
  split_ifs with hdims
  · rw [splitWithSizes_eq fun p _ r _ => p.length_allGatherInput r]
    exact congrArg some (List.map_congr_left fun p hp => p.flatMap_of_dim_zero (hdims p hp))
  · exact copyColumns_eq hrank (fun _ => []) 0 fun _ _ => rfl

end CopyOut

/-! ### The packed gradients -/

section Gradients

variable {worldSize : ℕ}

section Packing

variable [Zero α]

namespace FusedParam

variable (p : FusedParam α worldSize) {grad : Tensor α}

theorem length_gradShard (row : ℕ) : (p.gradShard grad row).data.length = p.numel := by
  rw [Tensor.length_data]
  rfl

theorem packGrad_eq (hworld : 0 < worldSize) (hgrad : grad.shape = p.origSize) :
    p.packGrad grad =
      some ((List.range worldSize).map fun row => (p.gradShard grad row).data) := by
  rw [packGrad]
  split_ifs with hdim
  · rfl
  · obtain ⟨m, hsize⟩ := p.even hdim
    have hpadded := p.padded_of_dvd hworld hsize
    have hchunks : grad.chunkAlong worldSize p.dim =
        (List.range worldSize).map (p.gradShard grad) := by
      rw [Tensor.chunkAlong_of_eq_mul hworld (hgrad ▸ hsize)]
      refine List.map_congr_left fun row _ => ?_
      rw [Tensor.narrowAlong, gradShard, hpadded, getD_set_self p.dim_lt, hgrad]
    obtain ⟨size, rest, hcons⟩ := p.exists_padded_eq_cons
    have hshape : ∀ k < worldSize, (p.gradShard grad k).shape = size :: rest := fun _ _ => hcons
    rw [hchunks, Tensor.catAlong_range hworld (Nat.zero_lt_of_lt (Nat.lt_succ_self _)) hshape,
      Option.map_some, ← Tensor.flatMap_data hshape,
      viewRows_flatMap (fun k _ => p.length_gradShard k) hworld]

end FusedParam

/-- The loop, behind the columns that are packed. -/
theorem packGrads_eq (hworld : 0 < worldSize) {pairs : List (FusedParam α worldSize × Tensor α)}
    (hgrads : ∀ q ∈ pairs, q.2.shape = q.1.origSize) (front back : ℕ → List α) (offset : ℕ)
    (hfront : ∀ r < worldSize, (front r).length = offset)
    (hback : ∀ r < worldSize, (back r).length = (pairs.map fun q => q.1.numel).sum) :
    packGrads ((List.range worldSize).map fun r => front r ++ back r) offset pairs =
      some ((List.range worldSize).map fun r =>
        front r ++ pairs.flatMap fun q => (q.1.gradShard q.2 r).data) := by
  induction pairs generalizing front back offset with
  | nil =>
    have hnil : ∀ r ∈ List.range worldSize, front r ++ back r = front r := by
      intro r hr
      rw [List.length_eq_zero_iff.1 (hback r (List.mem_range.1 hr)), List.append_nil]
    simp only [List.flatMap_nil, List.append_nil]
    rw [List.map_congr_left hnil, packGrads, if_neg (not_exists_row hfront)]
  | cons q pairs ih =>
    obtain ⟨p, grad⟩ := q
    have hpiece : ∀ r, (p.gradShard grad r).data.length = p.numel := p.length_gradShard
    have hsum : ∀ r < worldSize,
        (back r).length = p.numel + (pairs.map fun q => q.1.numel).sum := hback
    have hfits : ¬ ∃ row ∈ (List.range worldSize).map fun r => front r ++ back r,
        row.length < offset + p.numel := by
      rintro ⟨row, hrow, hlt⟩
      obtain ⟨r, hr, rfl⟩ := List.mem_map.1 hrow
      have hr := List.mem_range.1 hr
      rw [List.length_append, hfront r hr, hsum r hr] at hlt
      omega
    have hwrite : List.zipWith (fun row piece => FlatBuffer.write row offset piece)
        ((List.range worldSize).map fun r => front r ++ back r)
        ((List.range worldSize).map fun row => (p.gradShard grad row).data) =
        (List.range worldSize).map fun r =>
          (front r ++ (p.gradShard grad r).data) ++ (back r).drop p.numel := by
      rw [List.zipWith_map, List.zipWith_self]
      refine List.map_congr_left fun r hr => ?_
      rw [FlatBuffer.write_append (hfront r (List.mem_range.1 hr)), hpiece, List.append_assoc]
    have hrest := ih (fun q hq => hgrads q (List.mem_cons_of_mem _ hq))
      (fun r => front r ++ (p.gradShard grad r).data) (fun r => (back r).drop p.numel)
      (offset + p.numel)
      (fun r hr => by rw [List.length_append, hfront r hr, hpiece])
      (fun r hr => by rw [List.length_drop, hsum r hr, Nat.add_sub_cancel_left])
    rw [packGrads, p.packGrad_eq hworld (hgrads _ List.mem_cons_self), Option.bind_eq_bind,
      Option.bind_some, if_neg (not_or.2 ⟨hfits, not_exists_row fun r _ => hpiece r⟩), hwrite,
      hrest]
    simp only [List.flatMap_cons, List.append_assoc]

/-- The row of a rank holds its shards of all gradients, one behind the other. -/
theorem reduceScatterCopyIn_eq (hworld : 0 < worldSize)
    (pairs : List (FusedParam α worldSize × Tensor α))
    (hgrads : ∀ q ∈ pairs, q.2.shape = q.1.origSize) (buffer : List α)
    (hbuffer : buffer.length = (pairs.map fun q => q.1.numel).sum * worldSize) :
    reduceScatterCopyIn (pairs.map Prod.fst) (pairs.map Prod.snd) buffer =
      some ((List.range worldSize).flatMap fun r =>
        pairs.flatMap fun q => (q.1.gradShard q.2 r).data) := by
  have hrows : ∀ r < worldSize, (FlatBuffer.narrow buffer
      (r * (buffer.length / worldSize)) (buffer.length / worldSize)).length =
        (pairs.map fun q => q.1.numel).sum := by
    intro r hr
    rw [hbuffer, Nat.mul_div_cancel _ hworld]
    refine FlatBuffer.length_narrow ?_
    rw [hbuffer, Nat.mul_comm _ worldSize, ← Nat.succ_mul]
    exact Nat.mul_le_mul_right _ hr
  have hpack := packGrads_eq hworld hgrads (fun _ => []) _ 0 (fun _ _ => rfl) hrows
  simp only [List.nil_append] at hpack
  have hzip : (pairs.map Prod.fst).zip (pairs.map Prod.snd) = pairs := by
    rw [List.zip_map']
    exact List.map_id pairs
  rw [reduceScatterCopyIn, if_neg (by simp), hzip, viewRows, hpack, Option.map_some,
    List.flatMap_def]

end Packing

/-! ### The sums -/

variable [AddCommMonoid α]

/-- The padded shard of a rank of the summed gradients. -/
def FusedParam.summedShard (p : FusedParam α worldSize) (grads : ℕ → Tensor α) (rank : ℕ) :
    Tensor α :=
  Tensor.ofEntries p.paddedShardedParamSize fun idx =>
    ((List.range worldSize).map fun source => (p.gradShard (grads source) rank).entry idx).sum

theorem FusedParam.data_summedShard (p : FusedParam α worldSize) (grads : ℕ → Tensor α)
    (rank : ℕ) : (p.summedShard grads rank).data = (List.range p.numel).map fun i =>
      ((List.range worldSize).map fun source =>
        (p.gradShard (grads source) rank).data.getD i 0).sum := by
  refine List.map_congr_left fun i hi => ?_
  have hi : i < p.paddedShardedParamSize.prod := List.mem_range.1 hi
  rw [Tensor.flat, summedShard, Tensor.shape_ofEntries, Tensor.entry_ofEntries _ (valid_digits hi)]
  refine congrArg List.sum (List.map_congr_left fun source _ => ?_)
  rw [Tensor.getD_data hi]
  rfl

/-- The sums of rows are the sums of their pieces. -/
theorem map_sum_flatMap {ι : Type} (worldSize : ℕ) (l : List ι) (d : ι → ℕ → List α)
    (numel : ι → ℕ) (hd : ∀ x ∈ l, ∀ source < worldSize, (d x source).length = numel x) :
    ((List.range (l.map numel).sum).map fun i => ((List.range worldSize).map fun source =>
        (l.flatMap (d · source)).getD i 0).sum) =
      l.flatMap fun x => (List.range (numel x)).map fun i =>
        ((List.range worldSize).map fun source => (d x source).getD i 0).sum := by
  induction l with
  | nil => rfl
  | cons x l ih =>
    have hx := hd x List.mem_cons_self
    rw [List.map_cons, List.sum_cons, List.range_add, List.map_append, List.map_map,
      List.flatMap_cons, ← ih fun y hy => hd y (List.mem_cons_of_mem _ hy)]
    refine congrArg₂ (· ++ ·) ?_ ?_
    · refine List.map_congr_left fun i hi => congrArg List.sum
        (List.map_congr_left fun source hsource => ?_)
      have hlt : i < (d x source).length := by
        rw [hx source (List.mem_range.1 hsource)]
        exact List.mem_range.1 hi
      rw [List.flatMap_cons, List.getD_append _ _ _ _ hlt]
    · refine List.map_congr_left fun i _ => congrArg List.sum
        (List.map_congr_left fun source hsource => ?_)
      have hlength := hx source (List.mem_range.1 hsource)
      rw [List.flatMap_cons, List.getD_append_right _ _ _ _
        (hlength.le.trans (Nat.le_add_right _ _)), hlength, Nat.add_sub_cancel_left]

variable {bucket : List (FusedParam α worldSize × (ℕ → Tensor α))} {rank : ℕ}

/-- What reaches a rank are the sums of its shards, one behind the other. -/
theorem reduceScatter_eq {input : ℕ → List α} {total : ℕ}
    (htotal : total = (bucket.map fun q => q.1.numel).sum)
    (hinput : ∀ source < worldSize, FlatBuffer.narrow (input source) (rank * total) total =
      bucket.flatMap fun q => (q.1.gradShard (q.2 source) rank).data) :
    reduceScatter worldSize total input rank =
      bucket.flatMap fun q => (q.1.summedShard q.2 rank).data := by
  have hsum := map_sum_flatMap worldSize bucket
    (fun q source => (q.1.gradShard (q.2 source) rank).data) (fun q => q.1.numel)
    fun q _ source _ => q.1.length_gradShard rank
  rw [List.flatMap_congr fun q _ => q.1.data_summedShard q.2 rank, ← hsum, reduceScatter, htotal]
  rw [htotal] at hinput
  refine List.map_congr_left fun i _ => congrArg List.sum
    (List.map_congr_left fun source hsource => ?_)
  rw [hinput source (List.mem_range.1 hsource)]

/-- The buffers of the unsharded parameters are full tensors whose chunks are the shards of the
ranks, with zeros behind them; a row of packed gradients is made of the shards of its rank, and what
a parameter finds at its offset after the reduction is the sum of its own shards. -/
theorem fused_packing_exact (hworld : 0 < worldSize) (cast : ℕ → α → α)
    (params : List (FusedParam α worldSize)) (zeroCopy : ℕ → Bool) (empty : ℕ → ℕ → α)
    (bucket : List (FusedParam α worldSize × (ℕ → Tensor α)))
    (hgrads : ∀ q ∈ bucket, ∀ source, (q.2 source).shape = q.1.origSize) :
    (∃ output, gathered zeroCopy cast params empty = some output ∧
      ∀ rank < worldSize, ∃ buffers, copyOut params rank output = some buffers ∧
        List.Forall₂ (fun p buffer => ∃ full,
          Tensor.ofData (p.paddedShardedParamSize.set p.dim
              (worldSize * p.paddedShardedParamSize.getD p.dim 0)) buffer = some full ∧
            (p.dim ≠ 0 → full.shape = p.origSize) ∧
            full.chunkAlong worldSize p.dim =
              (List.range worldSize).map (p.commShard cast) ∧
            ∀ shardRank idx, Valid p.paddedShardedParamSize idx →
              (p.commShard cast shardRank).entry idx = cast p.storageDtype
                (if Valid (p.shard shardRank).shape idx then (p.shard shardRank).entry idx
                else 0)) params buffers) ∧
    ∃ input : ℕ → List α,
      (∀ source, reduceScatterCopyIn (bucket.map Prod.fst) (bucket.map fun q => q.2 source)
          ((List.range ((paramNumels (bucket.map Prod.fst)).sum * worldSize)).map
            (empty source)) = some (input source)) ∧
      (∀ source, ∀ row < worldSize,
        FlatBuffer.narrow (input source) (row * (paramNumels (bucket.map Prod.fst)).sum)
            (paramNumels (bucket.map Prod.fst)).sum =
          bucket.flatMap fun q => (q.1.gradShard (q.2 source) row).data) ∧
      ∀ rank < worldSize,
        ((paramOffsets (bucket.map Prod.fst)).zip (paramNumels (bucket.map Prod.fst))).map
            (fun place => FlatBuffer.narrow
              (reduceScatter worldSize (paramNumels (bucket.map Prod.fst)).sum input rank)
              place.1 place.2) =
          bucket.map fun q => (q.1.summedShard q.2 rank).data := by
  constructor
  · refine ⟨_, gathered_eq zeroCopy empty, fun rank hrank => ⟨_, copyOut_gathered hrank, ?_⟩⟩
    refine List.forall₂_map_right_iff.2 (List.forall₂_same.2 fun p _ => ?_)
    exact ⟨p.full cast, Tensor.ofData_data (p.full cast), p.shape_full_of_ne hworld,
      p.chunkAlong_full hworld, fun _ _ => p.entry_commShard _⟩
  have hnumels : paramNumels (bucket.map Prod.fst) = bucket.map fun q => q.1.numel := by
    rw [paramNumels, List.map_map]
    rfl
  have hrow : ∀ source row, (bucket.flatMap fun q => (q.1.gradShard (q.2 source) row).data).length =
      (bucket.map fun q => q.1.numel).sum := by
    intro source row
    rw [List.length_flatMap]
    simp only [FusedParam.length_gradShard]
  have hnarrow : ∀ source, ∀ row < worldSize, FlatBuffer.narrow
      ((List.range worldSize).flatMap fun r =>
        bucket.flatMap fun q => (q.1.gradShard (q.2 source) r).data)
      (row * (bucket.map fun q => q.1.numel).sum) (bucket.map fun q => q.1.numel).sum =
      bucket.flatMap fun q => (q.1.gradShard (q.2 source) row).data :=
    fun source row hlt => FlatBuffer.narrow_flatMap_range (fun r _ => hrow source r) hlt
  rw [hnumels]
  refine ⟨fun source => (List.range worldSize).flatMap fun r =>
    bucket.flatMap fun q => (q.1.gradShard (q.2 source) r).data, fun source => ?_, hnarrow,
    fun rank hrank => ?_⟩
  · have hcopy := reduceScatterCopyIn_eq hworld (bucket.map fun q => (q.1, q.2 source))
      (fun q hq => by
        obtain ⟨q, hmem, rfl⟩ := List.mem_map.1 hq
        exact hgrads q hmem source)
      ((List.range ((bucket.map fun q => q.1.numel).sum * worldSize)).map (empty source))
      (by
        rw [List.length_map, List.length_range, List.map_map]
        rfl)
    rw [List.map_map, List.map_map] at hcopy
    simp only [List.flatMap_map] at hcopy
    exact hcopy
  · rw [reduceScatter_eq rfl fun source _ => hnarrow source rank hrank]
    have hpieces : bucket.map (fun q => q.1.numel) =
        (bucket.map fun q => (q.1.summedShard q.2 rank).data).map List.length := by
      rw [List.map_map]
      exact List.map_congr_left fun q _ => (Tensor.length_data (q.1.summedShard q.2 rank)).symm
    rw [paramOffsets, hnumels, hpieces, List.flatMap_def]
    exact FlatBuffer.map_narrow_offsets [] 0 rfl

end Gradients

/-- A vector of three elements, unevenly cut, and a matrix cut along its columns. -/
def vectorAndMatrix : List (FusedParam ℕ 2) :=
  [⟨[3], 0, 0, false, fun rank => Tensor.ofEntries (shardSizeOf [3] 0 2 rank) fun _ => rank + 1,
      by decide, by decide, fun _ => rfl⟩,
    ⟨[1, 2], 1, 0, false,
      fun rank => Tensor.ofEntries (shardSizeOf [1, 2] 1 2 rank) fun _ => rank + 1,
      by decide, by decide, fun _ => rfl⟩]

/-- Gradients that are `source + 1` on a rank, for both. -/
def vectorAndMatrixGrads : List (FusedParam ℕ 2 × (ℕ → Tensor ℕ)) :=
  vectorAndMatrix.map fun p =>
    (p, fun source => Tensor.ofEntries p.origSize fun _ => source + 1)

theorem fused_packing_exact_two :
    (∃ output buffers, gathered (fun _ => true) (fun _ x => x) vectorAndMatrix (fun _ _ => 0) =
        some output ∧ copyOut vectorAndMatrix 0 output = some buffers ∧ buffers.length = 2) ∧
    ∃ input : ℕ → List ℕ,
      ((paramOffsets vectorAndMatrix).zip (paramNumels vectorAndMatrix)).map
        (fun place => FlatBuffer.narrow (reduceScatter 2 3 input 1) place.1 place.2) =
          [[3, 0], [3]] := by
  obtain ⟨⟨output, houtput, hbuffers⟩, input, -, -, hsums⟩ :=
    fused_packing_exact Nat.two_pos (fun _ x => x) vectorAndMatrix (fun _ => true) (fun _ _ => 0)
      vectorAndMatrixGrads (fun q hq source => by
        obtain ⟨p, -, rfl⟩ := List.mem_map.1 hq
        rfl)
  obtain ⟨buffers, hcopy, hfull⟩ := hbuffers 0 Nat.two_pos
  exact ⟨⟨output, buffers, houtput, hcopy, hfull.length_eq.symm⟩, input,
    (hsums 1 Nat.one_lt_two).trans (by decide)⟩

end HyperParallel.FullyShard

import HyperParallel.ContextParallel.Collectives

/-!
# Hybrid context parallelism

`hybrid_cp_attention` of `distributed/context_parallel/collectives.py`. The ranks of the CP mesh form
a grid: rank `c * u + j` is member `j` of ulysses group `c` and member `c` of colossal group `j`.

* `attention`: attention that treats heads and query rows on their own;
* `hybridCpAttention`: all ranks together;
* `chunk`, `headChunk`, `headPart`: what a rank holds before, between and after the exchanges;
* `fullSequence_eq`: every rank sees keys and values in the order of the whole sequence;
* `hybridGrid_eq`: the outputs are the chunks of the attention of the whole tensors.

Tensors are `[batch, heads, sequence, features]`.
-/

namespace HyperParallel.ContextParallel

open Exchange

variable {α : Type} [Zero α] {C u : ℕ}

/-! ### Attention -/

/-- The query rows of a head at a position, for all of the batch. -/
def queryRow (query : Tensor α) (head position : ℕ) : Tensor α :=
  Tensor.ofEntries [query.shape.getD 0 0, query.shape.getD 3 0] fun idx =>
    query.entry [idx.getD 0 0, head, position, idx.getD 1 0]

/-- A head of the keys or the values. -/
def headOf (x : Tensor α) (head : ℕ) : Tensor α :=
  Tensor.ofEntries [x.shape.getD 0 0, x.shape.getD 2 0, x.shape.getD 3 0] fun idx =>
    x.entry [idx.getD 0 0, head, idx.getD 1 0, idx.getD 2 0]

/-- Attention that makes every output row of a query row and of the keys and values of one head:
query head `h` reads the head of its group. -/
def attention (kernel : Tensor α → Tensor α → Tensor α → List ℕ → α)
    (query key value : Tensor α) : Tensor α :=
  Tensor.ofEntries query.shape fun idx =>
    let group := query.shape.getD 1 0 / key.shape.getD 1 0
    kernel (queryRow query (idx.getD 1 0) (idx.getD 2 0)) (headOf key (idx.getD 1 0 / group))
      (headOf value (idx.getD 1 0 / group)) [idx.getD 0 0, idx.getD 3 0]

/-! ### All ranks -/

/-- `ulysses_seq_to_head` in every ulysses group. -/
def seqToHeadGrid (x : Fin C → Fin u → Tensor α) : Option (Fin C → Fin u → Tensor α) :=
  everyRank fun c => ulyssesSeqToHead (x c) 2 1

/-- `flex_cp_allgather` in every colossal group. -/
def allgatherGrid (x : Fin C → Fin u → Tensor α) : Option (Fin C → Fin u → Tensor α) :=
  (everyRank fun j => flexCpAllgather (fun c => x c j) 2).map fun y c j => y j c

/-- What becomes of the keys, and of the values, before the attention. -/
def fullSequence (x : Fin C → Fin u → Tensor α) : Option (Fin C → Fin u → Tensor α) := do
  let x ← seqToHeadGrid x
  allgatherGrid x

/-- `hybrid_cp_attention` on the grid. -/
def hybridGrid (attentionFn : Tensor α → Tensor α → Tensor α → Tensor α)
    (query key value : Fin C → Fin u → Tensor α) : Option (Fin C → Fin u → Tensor α) := do
  let headQuery ← seqToHeadGrid query
  let fullKey ← fullSequence key
  let fullValue ← fullSequence value
  let output := fun c j => attentionFn (headQuery c j) (fullKey c j) (fullValue c j)
  let restored ← everyRank fun c => ulyssesHeadToSeq (output c) 2 1
  if ∀ c j, (restored c j).shape = (query c j).shape then return restored else none

/-- `_validate_ulysses_head_counts` -/
def validHeadCounts (query key value : Tensor α) (ulyssesDegree : ℕ) : Bool :=
  [query, key, value].all fun x => x.shape.getD 1 0 % ulyssesDegree = 0

/-- The grid of `_build_hybrid_cp_submeshes`. -/
def gridRank {cpSize : ℕ} (ulyssesDegree : ℕ) (c : Fin (cpSize / ulyssesDegree))
    (j : Fin ulyssesDegree) : Fin cpSize :=
  ⟨c.val * ulyssesDegree + j.val,
    (Blocks.index_lt c j).trans_le (Nat.div_mul_le_self cpSize ulyssesDegree)⟩

/-- `hybrid_cp_attention` on all ranks of the CP mesh. -/
def hybridCpAttention {cpSize : ℕ} (attentionFn : Tensor α → Tensor α → Tensor α → Tensor α)
    (query key value : Fin cpSize → Tensor α) (ulyssesDegree : ℕ) :
    Option (Fin cpSize → Tensor α) := do
  let _ ← everyRank fun r =>
    if validHeadCounts (query r) (key r) (value r) ulyssesDegree then some () else none
  if h : 1 < ulyssesDegree ∧ ulyssesDegree < cpSize ∧ cpSize % ulyssesDegree = 0 then
    let grid := fun (x : Fin cpSize → Tensor α) c j => x (gridRank ulyssesDegree c j)
    let output ← hybridGrid attentionFn (grid query) (grid key) (grid value)
    return fun r => output
      ⟨r.val / ulyssesDegree, Nat.div_lt_of_lt_mul (by
        rw [Nat.mul_div_cancel' (Nat.dvd_of_mod_eq_zero h.2.2)]
        exact r.isLt)⟩
      ⟨r.val % ulyssesDegree, Nat.mod_lt _ (by omega)⟩
  else none

/-! ### What a rank holds -/

/-- The `r`-th contiguous chunk of the sequence. -/
def chunk (x : Tensor α) (r m : ℕ) : Tensor α :=
  Tensor.ofEntries (x.shape.set 2 m) fun idx => x.entry (idx.set 2 (r * m + idx.getD 2 0))

/-- Between the exchanges: part `j` of the heads, chunk `c` of the sequence. -/
def headChunk (x : Tensor α) (c j w m : ℕ) : Tensor α :=
  Tensor.ofEntries ((x.shape.set 1 w).set 2 m) fun idx =>
    x.entry ((idx.set 1 (j * w + idx.getD 1 0)).set 2 (c * m + idx.getD 2 0))

/-- Part `j` of the heads, the whole sequence. -/
def headPart (x : Tensor α) (j w : ℕ) : Tensor α :=
  Tensor.ofEntries (x.shape.set 1 w) fun idx => x.entry (idx.set 1 (j * w + idx.getD 1 0))

theorem valid_four {A B C D : ℕ} {idx : List ℕ} (h : Valid [A, B, C, D] idx) :
    ∃ a b c d, idx = [a, b, c, d] ∧ a < A ∧ b < B ∧ c < C ∧ d < D := by
  match idx, h with
  | [a, b, c, d], .cons ha (.cons hb (.cons hc (.cons hd .nil))) =>
    exact ⟨a, b, c, d, rfl, ha, hb, hc, hd⟩

variable {x : Tensor α} {B w m F : ℕ}

theorem shape_chunk (hshape : x.shape = [B, w, F, m]) (r k : ℕ) :
    (chunk x r k).shape = [B, w, k, m] := by
  rw [chunk, Tensor.shape_ofEntries, hshape]
  rfl

/-- The first exchange turns the chunks of an ulysses group into parts of the heads. -/
theorem seqToHead_chunks (hu : 1 < u) (hshape : x.shape = [B, u * w, C * (u * m), F]) (c : Fin C) :
    ulyssesSeqToHead (fun j : Fin u => chunk x (c * u + j) m) 2 1 =
      some fun j : Fin u => headChunk x c j w (u * m) := by
  have hchunk := fun j : Fin u => shape_chunk hshape (c * u + j) m
  have hheads : normalizeDim 1 [B, u * w, m, F].length = some 1 := rfl
  have hseq : normalizeDim 2 [B, u * w, m, F].length = some 2 := rfl
  rw [ulyssesSeqToHead, ulyssesAllToAll_eq hu hchunk hheads hseq (by omega) rfl]
  congr 1
  funext j
  rw [headChunk, hshape]
  apply Tensor.ofEntries_congr
  intro idx hidx
  obtain ⟨b, h, s, f, rfl, hb, hh, hs, hf⟩ := valid_four hidx
  simp only [List.getD_cons_succ, List.getD_cons_zero, List.set_cons_succ, List.set_cons_zero]
    at hs ⊢
  obtain ⟨hdiv, hmod⟩ := div_mod_lt hs
  have hhead : j * w + h < u * w := Blocks.index_lt j ⟨h, hh⟩
  have hvalid : Valid (x.shape.set 2 m) [b, j * w + h, s % m, f] := by
    rw [hshape]
    exact .cons hb (.cons hhead (.cons hmod (.cons hf .nil)))
  have hposition : (c * u + s / m) * m + s % m = c * (u * m) + s := by
    rw [Nat.add_mul, Nat.mul_assoc, Nat.add_assoc, Nat.div_add_mod']
  rw [entryAt_of_lt _ hdiv, chunk, Tensor.entry_ofEntries _ hvalid]
  simp only [List.getD_cons_succ, List.getD_cons_zero, List.set_cons_succ, List.set_cons_zero]
  rw [hposition]

/-- The second exchange puts the parts of a colossal group together. -/
theorem allgather_headChunks (hC : 1 < C) (hshape : x.shape = [B, u * w, C * m, F]) (j : Fin u) :
    flexCpAllgather (fun c : Fin C => headChunk x c j w m) 2 = some fun _ => headPart x j w := by
  have hchunk : ∀ c : Fin C, (headChunk x c j w m).shape = [B, w, m, F] := by
    intro c
    rw [headChunk, Tensor.shape_ofEntries, hshape]
    rfl
  have hseq : normalizeDim 2 [B, w, m, F].length = some 2 := rfl
  rw [flexCpAllgather_eq hC hchunk hseq]
  congr 1
  funext c
  rw [headPart, hshape]
  apply Tensor.ofEntries_congr
  intro idx hidx
  obtain ⟨b, h, s, f, rfl, hb, hh, hs, hf⟩ := valid_four hidx
  simp only [List.getD_cons_succ, List.getD_cons_zero, List.set_cons_succ, List.set_cons_zero]
    at hs ⊢
  obtain ⟨hdiv, hmod⟩ := div_mod_lt hs
  have hvalid : Valid ((x.shape.set 1 w).set 2 m) [b, h, s % m, f] := by
    rw [hshape]
    exact .cons hb (.cons hh (.cons hmod (.cons hf .nil)))
  rw [entryAt_of_lt _ hdiv, headChunk, Tensor.entry_ofEntries _ hvalid]
  simp only [List.getD_cons_succ, List.getD_cons_zero, List.set_cons_succ, List.set_cons_zero,
    Nat.div_add_mod']

/-- Keys and values reach every rank in the order of the whole sequence. -/
theorem fullSequence_eq (hu : 1 < u) (hC : 1 < C) (hshape : x.shape = [B, u * w, C * (u * m), F]) :
    fullSequence (fun (c : Fin C) (j : Fin u) => chunk x (c * u + j) m) =
      some fun _ (j : Fin u) => headPart x j w := by
  have hheads : seqToHeadGrid (fun (c : Fin C) (j : Fin u) => chunk x (c * u + j) m) =
      some fun (c : Fin C) (j : Fin u) => headChunk x c j w (u * m) :=
    everyRank_eq_some_iff.2 fun c => seqToHead_chunks hu hshape c
  have hgather : everyRank (fun j : Fin u =>
      flexCpAllgather (fun c : Fin C => headChunk x c j w (u * m)) 2) =
      some fun (j : Fin u) (_ : Fin C) => headPart x j w :=
    everyRank_eq_some_iff.2 fun j => allgather_headChunks hC hshape j
  rw [fullSequence, hheads, Option.bind_eq_bind, Option.bind_some, allgatherGrid, hgather]
  rfl

/-! ### The attention of a part -/

theorem headOf_headPart (hshape : x.shape = [B, u * w, m, F]) (j : Fin u) {h : ℕ} (hh : h < w) :
    headOf (headPart x j w) h = headOf x (j * w + h) := by
  simp only [headOf, headPart, hshape, Tensor.shape_ofEntries, List.set_cons_succ,
    List.set_cons_zero, List.getD_cons_succ, List.getD_cons_zero]
  apply Tensor.ofEntries_congr
  intro idx hidx
  match idx, hidx with
  | [b, s, f], .cons hb (.cons hs (.cons hf .nil)) =>
    exact Tensor.entry_ofEntries _ (.cons hb (.cons hh (.cons hs (.cons hf .nil))))

theorem queryRow_headChunk (hshape : x.shape = [B, u * w, C * m, F]) (c : Fin C) (j : Fin u)
    {h s : ℕ} (hh : h < w) (hs : s < m) :
    queryRow (headChunk x c j w m) h s = queryRow x (j * w + h) (c * m + s) := by
  simp only [queryRow, headChunk, hshape, Tensor.shape_ofEntries, List.set_cons_succ,
    List.set_cons_zero, List.getD_cons_succ, List.getD_cons_zero]
  apply Tensor.ofEntries_congr
  intro idx hidx
  match idx, hidx with
  | [b, f], .cons hb (.cons hf .nil) =>
    exact Tensor.entry_ofEntries _ (.cons hb (.cons hh (.cons hs (.cons hf .nil))))

/-- A part of the query heads needs the same part of the heads of keys and values. -/
theorem attention_headChunk {query key value : Tensor α} {g Bk Bv M N Fk Fv : ℕ}
    (kernel : Tensor α → Tensor α → Tensor α → List ℕ → α)
    (hquery : query.shape = [B, u * (g * w), C * m, F]) (hkey : key.shape = [Bk, u * w, M, Fk])
    (hvalue : value.shape = [Bv, u * w, N, Fv]) (c : Fin C) (j : Fin u) :
    attention kernel (headChunk query c j (g * w) m) (headPart key j w) (headPart value j w) =
      headChunk (attention kernel query key value) c j (g * w) m := by
  symm
  apply Tensor.eq_ofEntries
  · rfl
  intro idx hidx
  simp only [headChunk, hquery, Tensor.shape_ofEntries, List.set_cons_succ, List.set_cons_zero]
    at hidx
  obtain ⟨b, h, s, f, rfl, hb, hh, hs, hf⟩ := valid_four hidx
  have hg : 0 < g := Nat.pos_of_mul_pos_right (Nat.zero_lt_of_lt hh)
  have hw : 0 < w := Nat.pos_of_mul_pos_left (Nat.zero_lt_of_lt hh)
  have hu : 0 < u := Nat.zero_lt_of_lt j.isLt
  have hkeyHead : h / g < w := Nat.div_lt_of_lt_mul hh
  have hlocal : g * w / w = g := Nat.mul_div_cancel g hw
  have hglobal : u * (g * w) / (u * w) = g := by rw [Nat.mul_div_mul_left _ _ hu, hlocal]
  have hhead : (j * (g * w) + h) / g = j * w + h / g := by
    rw [Nat.mul_left_comm, Nat.mul_add_div hg]
  have hposition : Valid query.shape [b, j * (g * w) + h, c * m + s, f] := by
    rw [hquery]
    exact .cons hb (.cons (Blocks.index_lt j ⟨h, hh⟩) (.cons (Blocks.index_lt c ⟨s, hs⟩)
      (.cons hf .nil)))
  have hpart : (headChunk (attention kernel query key value) c j (g * w) m).entry [b, h, s, f] =
      (attention kernel query key value).entry [b, j * (g * w) + h, c * m + s, f] := by
    refine Tensor.entry_ofEntries _ ?_
    rw [attention, Tensor.shape_ofEntries, hquery]
    exact hidx
  rw [hpart, attention, Tensor.entry_ofEntries _ hposition]
  simp only [List.getD_cons_succ, List.getD_cons_zero]
  have hqueryHeads : (headChunk query c j (g * w) m).shape.getD 1 0 = g * w := by
    simp [headChunk, hquery]
  have hkeyHeads : (headPart key j w).shape.getD 1 0 = w := by simp [headPart, hkey]
  have hqueryAll : query.shape.getD 1 0 = u * (g * w) := by simp [hquery]
  have hkeyAll : key.shape.getD 1 0 = u * w := by simp [hkey]
  rw [queryRow_headChunk hquery c j hh hs, hqueryHeads, hkeyHeads, hqueryAll, hkeyAll, hlocal,
    hglobal, hhead, headOf_headPart hkey j hkeyHead, headOf_headPart hvalue j hkeyHead]

/-! ### All ranks -/

/-- The second exchange of an ulysses group undoes the first. -/
theorem headToSeq_headChunks (hu : 1 < u) (hshape : x.shape = [B, u * w, C * (u * m), F])
    (c : Fin C) :
    ulyssesHeadToSeq (fun j : Fin u => headChunk x c j w (u * m)) 2 1 =
      some fun j : Fin u => chunk x (c * u + j) m := by
  have hheads : normalizeDim 1 [B, u * w, m, F].length = some 1 := rfl
  have hseq : normalizeDim 2 [B, u * w, m, F].length = some 2 := rfl
  obtain ⟨y, hy, hback⟩ := ulyssesAllToAll_inverse hu
    (fun j : Fin u => shape_chunk hshape (c * u + j) m) hheads hseq (by omega) rfl
  rw [seqToHead_chunks hu hshape c] at hy
  rwa [← Option.some.inj hy] at hback

section Grid

variable {query key value : Tensor α} {g Bk Bv M N Fk Fv : ℕ}
  (kernel : Tensor α → Tensor α → Tensor α → List ℕ → α)

theorem hybridGrid_eq (hu : 1 < u) (hC : 1 < C)
    (hquery : query.shape = [B, u * (g * w), C * (u * m), F])
    (hkey : key.shape = [Bk, u * w, C * (u * M), Fk])
    (hvalue : value.shape = [Bv, u * w, C * (u * N), Fv]) :
    hybridGrid (attention kernel) (fun (c : Fin C) (j : Fin u) => chunk query (c * u + j) m)
        (fun (c : Fin C) (j : Fin u) => chunk key (c * u + j) M)
        (fun (c : Fin C) (j : Fin u) => chunk value (c * u + j) N) =
      some fun (c : Fin C) (j : Fin u) => chunk (attention kernel query key value) (c * u + j) m := by
  have hqueryHeads : seqToHeadGrid (fun (c : Fin C) (j : Fin u) => chunk query (c * u + j) m) =
      some fun (c : Fin C) (j : Fin u) => headChunk query c j (g * w) (u * m) :=
    everyRank_eq_some_iff.2 fun c => seqToHead_chunks hu hquery c
  have hrestored : everyRank (fun c : Fin C => ulyssesHeadToSeq (fun j : Fin u =>
      attention kernel (headChunk query c j (g * w) (u * m)) (headPart key j w)
        (headPart value j w)) 2 1) =
      some fun (c : Fin C) (j : Fin u) =>
        chunk (attention kernel query key value) (c * u + j) m := by
    apply everyRank_eq_some_iff.2
    intro c
    simp only [attention_headChunk kernel hquery hkey hvalue]
    exact headToSeq_headChunks hu (x := attention kernel query key value) hquery c
  simp only [hybridGrid, hqueryHeads, fullSequence_eq hu hC hkey, fullSequence_eq hu hC hvalue,
    Option.bind_eq_bind, Option.bind_some, hrestored]
  exact if_pos fun _ _ => rfl

/-- The outputs of the ranks are the chunks of the attention of the whole tensors. -/
theorem hybridCpAttention_eq {cpSize queryHeads keyHeads : ℕ} (hu : 1 < u) (hlt : u < cpSize)
    (hdvd : u ∣ cpSize) (hgroups : keyHeads ∣ queryHeads) (hparts : u ∣ keyHeads)
    (hquery : query.shape = [B, queryHeads, cpSize * m, F])
    (hkey : key.shape = [Bk, keyHeads, cpSize * M, Fk])
    (hvalue : value.shape = [Bv, keyHeads, cpSize * N, Fv]) :
    hybridCpAttention (attention kernel) (fun r : Fin cpSize => chunk query r m)
        (fun r => chunk key r M) (fun r => chunk value r N) u =
      some fun r : Fin cpSize => chunk (attention kernel query key value) r m := by
  obtain ⟨w, rfl⟩ := hparts
  obtain ⟨g, rfl⟩ := hgroups
  have hgrid : cpSize = cpSize / u * u := (Nat.div_mul_cancel hdvd).symm
  have hC : 1 < cpSize / u := by
    rw [Nat.lt_div_iff_mul_lt' hdvd]
    omega
  have hrows : ∀ k, cpSize * k = cpSize / u * (u * k) := by
    intro k
    rw [← Nat.mul_assoc, ← hgrid]
  have hheads : u * w * g = u * (g * w) := by rw [Nat.mul_assoc, Nat.mul_comm w]
  rw [hrows, hheads] at hquery
  rw [hrows] at hkey hvalue
  have hvalid : everyRank (fun r : Fin cpSize =>
      if validHeadCounts (chunk query r m) (chunk key r M) (chunk value r N) u then some ()
      else none) = some fun _ => () := by
    apply everyRank_eq_some_iff.2
    intro r
    simp [validHeadCounts, chunk, hquery, hkey, hvalue]
  have hmesh : 1 < u ∧ u < cpSize ∧ cpSize % u = 0 := ⟨hu, hlt, Nat.mod_eq_zero_of_dvd hdvd⟩
  have houtput := hybridGrid_eq kernel hu hC hquery hkey hvalue
  rw [hybridCpAttention, hvalid, Option.bind_eq_bind, Option.bind_some, dif_pos hmesh]
  simp only [gridRank, houtput, Option.bind_eq_bind, Option.bind_some]
  change some _ = some _
  congr 1
  funext r
  rw [Nat.div_add_mod']

end Grid

/-- The chunks side by side are the whole. -/
theorem cat_chunks {n : ℕ} (hshape : x.shape = [B, w, n * m, F]) :
    cat (fun r : Fin n => chunk x r m) 2 = some fun _ => x := by
  rw [cat_eq fun r => shape_chunk hshape r m]
  congr 1
  funext _
  symm
  apply Tensor.eq_ofEntries hshape
  intro idx hidx
  obtain ⟨b, h, s, f, rfl, hb, hh, hs, hf⟩ := valid_four hidx
  simp only [List.getD_cons_succ, List.getD_cons_zero, List.set_cons_succ, List.set_cons_zero]
    at hs ⊢
  obtain ⟨hdiv, hmod⟩ := div_mod_lt hs
  have hvalid : Valid (x.shape.set 2 m) [b, h, s % m, f] := by
    rw [hshape]
    exact .cons hb (.cons hh (.cons hmod (.cons hf .nil)))
  rw [entryAt_of_lt _ hdiv, chunk, Tensor.entry_ofEntries _ hvalid]
  simp only [List.getD_cons_succ, List.getD_cons_zero, List.set_cons_succ, List.set_cons_zero,
    Nat.div_add_mod']

/-- The way back of a ulysses exchange restores every tensor, whatever its dims; and the exchange takes
place where they are two axes, of which the split one is divisible. -/
def Restores {n : ℕ} (x : Fin n → Tensor α) (seqDim headDim : ℤ) : Prop :=
  (∀ y, ulyssesSeqToHead x seqDim headDim = some y →
    ulyssesHeadToSeq y seqDim headDim = some x) ∧
  ∀ hd sd, (∀ r, normalizeDim headDim (x r).shape.length = some hd) →
    (∀ r, normalizeDim seqDim (x r).shape.length = some sd) → hd ≠ sd →
    (∀ r, n ∣ (x r).shape.getD hd 0) → (ulyssesSeqToHead x seqDim headDim).isSome

theorem restores_of_shape {n : ℕ} {x : Fin n → Tensor α} {shape : List ℕ}
    (hshape : ∀ r, (x r).shape = shape) (seqDim headDim : ℤ) : Restores x seqDim headDim := by
  refine ⟨fun y hy => ulyssesHeadToSeq_seqToHead hshape hy, ?_⟩
  intro hd sd hhd hsd hne hdvd
  by_cases hn : n ≤ 1
  · rw [ulyssesSeqToHead, ulyssesAllToAll, if_pos hn]
    rfl
  · have r : Fin n := ⟨0, by omega⟩
    obtain ⟨w, hw⟩ := hdvd r
    simp only [hshape] at hhd hsd hw
    rw [ulyssesSeqToHead, ulyssesAllToAll_eq (by omega) hshape (hhd r) (hsd r) hne hw]
    rfl

end HyperParallel.ContextParallel

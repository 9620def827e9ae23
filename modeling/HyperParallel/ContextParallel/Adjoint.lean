import HyperParallel.DTensor.AllToAll
import HyperParallel.Lib.TensorInner

/-!
# Backward passes of the collectives

`_SeqAllToAll`, `_AsyncUlyssesWait`, `_AsyncAllGatherWait` and `_AllGatherAlongDim` of
`distributed/context_parallel/collectives.py`, on all ranks of a group.

* `seqAllToAll`, `allGatherAlongDim`: the synchronous forms;
* `seqAllToAllBackward`, `allGatherAlongDimBackward`, `asyncUlyssesBackward`,
  `asyncAllGatherBackward`: what each `backward` computes;
* `seqAllToAll_eq_asyncUlysses`, `allGatherAlongDim_eq_asyncAllGather`: both forms agree;
* `dot_join`: to join parts is adjoint to taking them;
* `collectives_adjoint`: every backward is the adjoint of its forward.
-/

namespace HyperParallel.ContextParallel

open Exchange DTensor Tensor

variable {α : Type} {n : ℕ}

section Forward

variable [Zero α]

/-- `dist.all_to_all` of parts of one shape: part `r` of every rank. -/
def allToAllParts (inputs : Fin n → Fin n → Tensor α) : Option (Fin n → Fin n → Tensor α) :=
  if ∀ s a r b, (inputs s a).shape = (inputs r b).shape then some fun r s => inputs s r else none

/-- `_SeqAllToAll.forward` -/
def seqAllToAll (x : Fin n → Tensor α) (scatterDim gatherDim : ℤ) :
    Option (Fin n → Tensor α) := do
  let inputs ← everyRank fun r => do
    let scatter ← normalizeDim scatterDim (x r).shape.length
    if (x r).shape.getD scatter 0 % n ≠ 0 then none
    else some fun a : Fin n => chunkAt (x r) scatter n a
  let outputs ← allToAllParts inputs
  everyRank fun r => do
    let gather ← normalizeDim gatherDim (x r).shape.length
    (cat (outputs r) gather).map (· r)

/-- `_SeqAllToAll.backward` -/
def seqAllToAllBackward (gradOutput : Fin n → Tensor α) (scatterDim gatherDim : ℤ) :
    Option (Fin n → Tensor α) := seqAllToAll gradOutput gatherDim scatterDim

/-- `_AllGatherAlongDim.forward` -/
def allGatherAlongDim (t : Fin n → Tensor α) (cpDim : ℤ) : Option (Fin n → Tensor α) := do
  let dims ← everyRank fun r => normalizeDim cpDim (t r).shape.length
  everyRank fun r => (cat t (dims r)).map (· r)

/-- `torch.chunk(t, n, dim)[r]`: chunks of the size rounded up, as long as there are any. -/
def torchChunk (t : Tensor α) (n dim r : ℕ) : Option (Tensor α) :=
  let size := t.shape.getD dim 0
  let step := (size + n - 1) / n
  if size ≠ 0 ∧ size ≤ r * step then none
  else some (ofEntries (t.shape.set dim (min step (size - r * step))) fun idx =>
    t.entry (idx.set dim (r * step + idx.getD dim 0)))

end Forward

variable [CommRing α]

/-- `dist.all_reduce` of tensors of one shape. -/
def allReduce (grad : Fin n → Tensor α) : Option (Fin n → Tensor α) :=
  if ∀ s r, (grad s).shape = (grad r).shape then some fun r => Tensor.total (grad r).shape grad
  else none

/-- `_AllGatherAlongDim.backward` -/
def allGatherAlongDimBackward (gradOutput : Fin n → Tensor α) (cpDim : ℤ) :
    Option (Fin n → Tensor α) := do
  let grad ← allReduce gradOutput
  everyRank fun r => do
    let dim ← normalizeDim cpDim (grad r).shape.length
    torchChunk (grad r) n dim r

/-- The gradient of a launched all-gather of `x`: `_AsyncAllGatherWait.backward` with the axis the
launch has normalized, and nothing to do where nothing was launched. -/
def asyncAllGatherBackward (x gradOutput : Fin n → Tensor α) (gatherDim : ℤ) :
    Option (Fin n → Tensor α) :=
  if n ≤ 1 then some gradOutput
  else do
    let dims ← everyRank fun r => normalizeDim gatherDim (x r).shape.length
    let grad ← allReduce gradOutput
    everyRank fun r => torchChunk (grad r) n (dims r) r

/-- The gradient of a launched ulysses exchange of `x`: `_AsyncUlyssesWait.backward` with the axes
the launch has normalized, and nothing to do where nothing was launched. -/
def asyncUlyssesBackward (x gradOutput : Fin n → Tensor α) (seqDim headDim : ℤ) :
    Option (Fin n → Tensor α) :=
  if n ≤ 1 then some gradOutput
  else do
    let seqs ← everyRank fun r => normalizeDim seqDim (x r).shape.length
    let heads ← everyRank fun r => normalizeDim headDim (x r).shape.length
    let sends ← everyRank fun r => prepareUlyssesSend (gradOutput r) (seqs r) n
    let output ← allToAll sends
    everyRank fun r => reconstructAllToAll (output r) (heads r)

/-! ### Parts and wholes -/

section Join

variable {shape : List ℕ} {d : ℕ} {parts : Fin n → Tensor α} {t : Tensor α}

/-- Parts of one shape side by side. -/
def join (parts : Fin n → Tensor α) (shape : List ℕ) (d : ℕ) : Tensor α :=
  ofEntries (shape.set d (n * shape.getD d 0)) fun idx =>
    entryAt parts (idx.getD d 0 / shape.getD d 0) (idx.set d (idx.getD d 0 % shape.getD d 0))

theorem chunkAt_eq (hd : d < shape.length) (hshape : t.shape = shape.set d (n * shape.getD d 0))
    (a : Fin n) : chunkAt t d n a = ofEntries shape fun idx =>
      t.entry (idx.set d (a * shape.getD d 0 + idx.getD d 0)) := by
  have hsize : t.shape.getD d 0 / n = shape.getD d 0 := by
    rw [hshape, getD_set_self hd, Nat.mul_div_cancel_left _ a.pos]
  rw [chunkAt, hsize, hshape, List.set_set, set_getD_self hd]

/-- To join parts is adjoint to taking them. -/
theorem dot_join (hd : d < shape.length) (hparts : ∀ a, (parts a).shape = shape)
    (hshape : t.shape = shape.set d (n * shape.getD d 0)) :
    dot (join parts shape d) t = ∑ a : Fin n, dot (parts a) (chunkAt t d n a) := by
  simp only [dot, hparts, chunkAt_eq hd hshape]
  rw [← Finset.sum_product']
  symm
  refine Finset.sum_bij' (fun p _ => p.2.set d (p.1 * shape.getD d 0 + p.2.getD d 0))
    (fun idx hidx => (⟨idx.getD d 0 / shape.getD d 0,
      (div_mod_lt ((mem_indices.1 hidx).split_set hd).2.2.1).1⟩,
      idx.set d (idx.getD d 0 % shape.getD d 0))) ?_ ?_ ?_ ?_ ?_
  · rintro ⟨a, idx⟩ hidx
    exact mem_indices.2 ((mem_indices.1 (Finset.mem_product.1 hidx).2).beside hd a.isLt).1
  · intro idx hidx
    obtain ⟨-, -, hb, -⟩ := (mem_indices.1 hidx).split_set hd
    exact Finset.mem_product.2 ⟨Finset.mem_univ _,
      mem_indices.2 ((mem_indices.1 hidx).set_index hd (div_mod_lt hb).2)⟩
  · rintro ⟨a, idx⟩ hidx
    obtain ⟨-, hdiv, hback⟩ := (mem_indices.1 (Finset.mem_product.1 hidx).2).beside hd a.isLt
    exact Prod.ext (Fin.ext hdiv) hback
  · intro idx hidx
    have hvalid : Valid (shape.set d (n * shape.getD d 0)) idx := mem_indices.1 hidx
    have hlength : d < idx.length := by
      rw [hvalid.length_eq, List.length_set]
      exact hd
    simp only [getD_set_self hlength, Nat.div_add_mod', List.set_set, set_getD_self hlength]
  · rintro ⟨a, idx⟩ hidx
    have hvalid := mem_indices.1 (Finset.mem_product.1 hidx).2
    obtain ⟨hbeside, hdiv, hback⟩ := hvalid.beside hd a.isLt
    rw [entry_ofEntries _ hvalid, join, entry_ofEntries _ hbeside, hdiv, hback,
      entryAt_of_lt _ a.isLt]

theorem chunkAt_total {grads : Fin n → Tensor α} (hd : d < shape.length)
    (hshape : ∀ r, (grads r).shape = shape.set d (n * shape.getD d 0)) (a : Fin n) :
    chunkAt (Tensor.total (shape.set d (n * shape.getD d 0)) grads) d n a =
      Tensor.total shape fun r => chunkAt (grads r) d n a := by
  refine (chunkAt_eq hd rfl a).trans (ofEntries_congr fun idx hidx => ?_)
  obtain ⟨-, -, hb, -⟩ := hidx.split hd
  rw [entry_total grads (hidx.set_both (mul_add_lt a.isLt hb))]
  refine Finset.sum_congr rfl fun r _ => ?_
  dsimp only
  rw [chunkAt_eq hd (hshape r), entry_ofEntries _ hidx]

/-- Where the size is divisible, all chunks are there and equal. -/
theorem torchChunk_eq {w : ℕ} (hsize : t.shape.getD d 0 = n * w) (a : Fin n) :
    torchChunk t n d a = some (chunkAt t d n a) := by
  have hn := a.pos
  have hstep : (n * w + n - 1) / n = w := ceil_div_mul w hn
  have hle : a * w + w ≤ n * w := by
    rw [← Nat.succ_mul]
    exact Nat.mul_le_mul_right w a.isLt
  have hsome : ¬ (n * w ≠ 0 ∧ n * w ≤ a * w) := by
    rintro ⟨hne, hge⟩
    have hw : w = 0 := by omega
    exact hne (by rw [hw, Nat.mul_zero])
  have hmin : min w (n * w - a * w) = w := by omega
  simp only [torchChunk, chunkAt, hsize, hstep, if_neg hsome, hmin, Nat.mul_div_cancel_left w hn]

end Join

/-! ### The synchronous forms -/

section Sync

variable {shape : List ℕ} {x y g : Fin n → Tensor α} {scatterDim gatherDim cpDim : ℤ}
  {sd gd d w : ℕ}

theorem seqAllToAll_eq (hshape : ∀ r, (x r).shape = shape)
    (hs : normalizeDim scatterDim shape.length = some sd)
    (hg : normalizeDim gatherDim shape.length = some gd) (hsize : shape.getD sd 0 = n * w) :
    seqAllToAll x scatterDim gatherDim =
      some fun r : Fin n => join (fun s => chunkAt (x s) sd n r) (shape.set sd w) gd := by
  have hinputs : (everyRank fun r => do
      let scatter ← normalizeDim scatterDim (x r).shape.length
      if (x r).shape.getD scatter 0 % n ≠ 0 then none
      else some fun a : Fin n => chunkAt (x r) scatter n a) =
      some fun r (a : Fin n) => chunkAt (x r) sd n a := by
    apply everyRank_eq_some_iff.2
    intro r
    simp only [hshape, hs, Option.bind_eq_bind, Option.bind_some, hsize, Nat.mul_mod_right,
      ne_eq, not_true_eq_false, if_false]
  have hparts : ∀ s a : Fin n, (chunkAt (x s) sd n a).shape = shape.set sd w := by
    intro s a
    simp only [chunkAt, shape_ofEntries, hshape, hsize, Nat.mul_div_cancel_left w a.pos]
  have houtputs : allToAllParts (fun r (a : Fin n) => chunkAt (x r) sd n a) =
      some fun (r : Fin n) s => chunkAt (x s) sd n r :=
    if_pos fun s a r b => (hparts s a).trans (hparts r b).symm
  rw [seqAllToAll, hinputs, Option.bind_eq_bind, Option.bind_some, houtputs, Option.bind_some]
  apply everyRank_eq_some_iff.2
  intro r
  rw [hshape, hg, Option.bind_eq_bind, Option.bind_some, cat_eq fun s => hparts s r]
  rfl

/-- Two shapes that agree once an axis is split agree. -/
theorem shape_eq_of_set {s s' : List ℕ} {w' : ℕ} (h : s.set d w = s'.set d w')
    (hd : d < s.length) (hs : s.getD d 0 = n * w) (hs' : s'.getD d 0 = n * w') : s = s' := by
  have hlength : s.length = s'.length := by simpa using congrArg List.length h
  have hw : w = w' := by
    have hget := congrArg (fun l => List.getD l d 0) h
    simp only [getD_set_self hd, getD_set_self (hlength ▸ hd)] at hget
    exact hget
  calc s = (s.set d w).set d (s.getD d 0) := by rw [List.set_set, set_getD_self hd]
    _ = (s'.set d w').set d (s'.getD d 0) := by rw [h, hs, hs', hw]
    _ = s' := by rw [List.set_set, set_getD_self (hlength ▸ hd)]

/-- What an accepted exchange satisfies. -/
theorem seqAllToAll_accepted (r₀ : Fin n) (h : seqAllToAll x scatterDim gatherDim = some y) :
    ∃ shape sd gd w, (∀ r, (x r).shape = shape) ∧
      normalizeDim scatterDim shape.length = some sd ∧
      normalizeDim gatherDim shape.length = some gd ∧ shape.getD sd 0 = n * w := by
  obtain ⟨inputs, hinputs, h⟩ := Option.bind_eq_some_iff.1 h
  obtain ⟨outputs, houtputs, h⟩ := Option.bind_eq_some_iff.1 h
  rw [everyRank_eq_some_iff] at hinputs h
  have hinput : ∀ r, ∃ sd w, normalizeDim scatterDim (x r).shape.length = some sd ∧
      (x r).shape.getD sd 0 = n * w ∧ ∀ a, (inputs r a).shape = (x r).shape.set sd w := by
    intro r
    obtain ⟨sd, hs, hr⟩ := Option.bind_eq_some_iff.1 (hinputs r)
    split_ifs at hr with hmod
    refine ⟨sd, (x r).shape.getD sd 0 / n, hs,
      (Nat.mul_div_cancel' (Nat.dvd_of_mod_eq_zero (not_not.1 hmod))).symm, fun a => ?_⟩
    rw [← Option.some.inj hr]
    rfl
  have hcommon : ∀ s a r b, (inputs s a).shape = (inputs r b).shape := by
    by_contra hne
    rw [allToAllParts, if_neg hne] at houtputs
    cases houtputs
  obtain ⟨sd, w, hs, hsize, hset⟩ := hinput r₀
  obtain ⟨gd, hg, -⟩ := Option.bind_eq_some_iff.1 (h r₀)
  refine ⟨_, sd, gd, w, fun r => ?_, hs, hg, hsize⟩
  obtain ⟨sd', w', hs', hsize', hset'⟩ := hinput r
  have heq := hcommon r r₀ r₀ r₀
  rw [hset, hset'] at heq
  have hlength : (x r).shape.length = (x r₀).shape.length := by
    simpa using congrArg List.length heq
  rw [hlength, hs] at hs'
  cases hs'
  exact shape_eq_of_set heq (hlength ▸ lt_of_normalizeDim hs) hsize' hsize

theorem allGatherAlongDim_eq (hshape : ∀ r, (x r).shape = shape)
    (hd : normalizeDim cpDim shape.length = some d) :
    allGatherAlongDim x cpDim = some fun _ => join x shape d := by
  have hdims : (everyRank fun r => normalizeDim cpDim (x r).shape.length) = some fun _ => d :=
    everyRank_eq_some_iff.2 fun r => by rw [hshape, hd]
  rw [allGatherAlongDim, hdims, Option.bind_eq_bind, Option.bind_some]
  exact everyRank_eq_some_iff.2 fun r => by
    rw [cat_eq hshape]
    rfl

theorem allGatherAlongDim_accepted (r₀ : Fin n) (h : allGatherAlongDim x cpDim = some y) :
    ∃ shape d, (∀ r, (x r).shape = shape) ∧ normalizeDim cpDim shape.length = some d := by
  obtain ⟨dims, hdims, h⟩ := Option.bind_eq_some_iff.1 h
  rw [everyRank_eq_some_iff] at hdims h
  refine ⟨_, dims r₀, fun r => ?_, hdims r₀⟩
  obtain ⟨out, hout, -⟩ := Option.map_eq_some_iff.1 (h r₀)
  rw [cat] at hout
  split_ifs at hout with hcommon
  exact hcommon r r₀

end Sync

/-! ### Adjoints -/

/-- `grad` is what the adjoint of `x ↦ y` makes of `g`, by the inner products over all ranks. -/
def IsAdjoint (x y g : Fin n → Tensor α) (grad : Option (Fin n → Tensor α)) : Prop :=
  ∃ dx, grad = some dx ∧ (∀ r, (dx r).shape = (x r).shape) ∧
    ∑ r, dot (y r) (g r) = ∑ r, dot (x r) (dx r)

section Adjoint

variable {shape : List ℕ} {x y g : Fin n → Tensor α} {scatterDim gatherDim cpDim : ℤ}
  {sd gd d w : ℕ}

theorem everyRank_zero {β : Type} (f : Fin 0 → Option β) : everyRank f = some Fin.elim0 :=
  everyRank_eq_some_iff.2 fun r => r.elim0

/-- Over no rank at all there is nothing to sum. -/
theorem isAdjoint_zero {x y g dx : Fin 0 → Tensor α} : IsAdjoint x y g (some dx) :=
  ⟨dx, rfl, fun r => r.elim0, by rw [Finset.univ_eq_empty, Finset.sum_empty, Finset.sum_empty]⟩

theorem isAdjoint_seqAllToAll (h : seqAllToAll x scatterDim gatherDim = some y)
    (hg : ∀ r, (g r).shape = (y r).shape) :
    IsAdjoint x y g (seqAllToAllBackward g scatterDim gatherDim) := by
  rcases n.eq_zero_or_pos with rfl | hn
  · have hback : seqAllToAllBackward g scatterDim gatherDim = some Fin.elim0 := by
      rw [seqAllToAllBackward, seqAllToAll, everyRank_zero, Option.bind_eq_bind, Option.bind_some,
        allToAllParts, if_pos fun s => s.elim0, Option.bind_some, everyRank_zero]
    rw [hback]
    exact isAdjoint_zero
  obtain ⟨shape, sd, gd, w, hshape, hscatter, hgather, hsize⟩ := seqAllToAll_accepted ⟨0, hn⟩ h
  have hsd := lt_of_normalizeDim hscatter
  have hgd := lt_of_normalizeDim hgather
  rw [seqAllToAll_eq hshape hscatter hgather hsize] at h
  obtain rfl := Option.some.inj h
  -- the parts that are exchanged have one shape
  obtain ⟨part, hpart⟩ : ∃ part, part = shape.set sd w := ⟨_, rfl⟩
  rw [← hpart] at hg ⊢
  have hlength : part.length = shape.length := by rw [hpart, List.length_set]
  have hwhole : shape = part.set sd (n * part.getD sd 0) := by
    rw [hpart, getD_set_self hsd, List.set_set, ← hsize, set_getD_self hsd]
  have hgshape : ∀ r, (g r).shape = part.set gd (n * part.getD gd 0) := hg
  have hgLength : (part.set gd (n * part.getD gd 0)).length = shape.length := by
    rw [List.length_set, hlength]
  have hback := seqAllToAll_eq hgshape (hgLength.symm ▸ hgather) (hgLength.symm ▸ hscatter)
    (getD_set_self (hlength.symm ▸ hgd))
  rw [List.set_set, set_getD_self (hlength.symm ▸ hgd)] at hback
  refine ⟨_, hback, fun r => ?_, ?_⟩
  · rw [hshape, hwhole]
    rfl
  have hxparts : ∀ s a : Fin n, (chunkAt (x s) sd n a).shape = part := by
    intro s a
    rw [chunkAt_eq (hlength.symm ▸ hsd) ((hshape s).trans hwhole), shape_ofEntries]
  have hgparts : ∀ r a : Fin n, (chunkAt (g r) gd n a).shape = part := by
    intro r a
    rw [chunkAt_eq (hlength.symm ▸ hgd) (hgshape r), shape_ofEntries]
  have hforward : ∀ r : Fin n, dot (join (fun s => chunkAt (x s) sd n r) part gd) (g r) =
      ∑ s, dot (chunkAt (x s) sd n r) (chunkAt (g r) gd n s) := fun r =>
    dot_join (hlength.symm ▸ hgd) (fun s => hxparts s r) (hgshape r)
  have hbackward : ∀ s : Fin n, dot (x s) (join (fun r : Fin n => chunkAt (g r) gd n s) part sd) =
      ∑ r : Fin n, dot (chunkAt (x s) sd n r) (chunkAt (g r) gd n s) := by
    intro s
    rw [dot_comm ((hshape s).trans hwhole), dot_join (hlength.symm ▸ hsd)
      (fun r => hgparts r s) ((hshape s).trans hwhole)]
    exact Finset.sum_congr rfl fun r _ => dot_comm ((hgparts r s).trans (hxparts s r).symm)
  calc ∑ r : Fin n, dot (join (fun s => chunkAt (x s) sd n r) part gd) (g r)
      = ∑ r : Fin n, ∑ s : Fin n, dot (chunkAt (x s) sd n r) (chunkAt (g r) gd n s) :=
        Finset.sum_congr rfl fun r _ => hforward r
    _ = ∑ s : Fin n, ∑ r : Fin n, dot (chunkAt (x s) sd n r) (chunkAt (g r) gd n s) :=
        Finset.sum_comm
    _ = ∑ s : Fin n, dot (x s) (join (fun r : Fin n => chunkAt (g r) gd n s) part sd) :=
        Finset.sum_congr rfl fun s _ => (hbackward s).symm

theorem allReduce_eq (hg : ∀ r, (g r).shape = shape) :
    allReduce g = some fun _ => Tensor.total shape g := by
  rw [allReduce, if_pos fun s r => (hg s).trans (hg r).symm]
  simp only [hg]

theorem allGatherAlongDimBackward_eq (hlt : d < shape.length)
    (hd : normalizeDim cpDim shape.length = some d)
    (hg : ∀ r, (g r).shape = shape.set d (n * shape.getD d 0)) :
    allGatherAlongDimBackward g cpDim =
      some fun s : Fin n => Tensor.total shape fun r => chunkAt (g r) d n s := by
  rw [allGatherAlongDimBackward, allReduce_eq hg, Option.bind_eq_bind, Option.bind_some]
  apply everyRank_eq_some_iff.2
  intro r
  have hdim : normalizeDim cpDim
      (Tensor.total (shape.set d (n * shape.getD d 0)) g).shape.length = some d := by
    rw [Tensor.total, shape_ofEntries, List.length_set, hd]
  rw [hdim, Option.bind_eq_bind, Option.bind_some, torchChunk_eq (getD_set_self hlt),
    chunkAt_total hlt hg]

theorem isAdjoint_allGatherAlongDim (h : allGatherAlongDim x cpDim = some y)
    (hg : ∀ r, (g r).shape = (y r).shape) :
    IsAdjoint x y g (allGatherAlongDimBackward g cpDim) := by
  rcases n.eq_zero_or_pos with rfl | hn
  · have hback : allGatherAlongDimBackward g cpDim = some Fin.elim0 := by
      rw [allGatherAlongDimBackward, allReduce, if_pos fun s => s.elim0, Option.bind_eq_bind,
        Option.bind_some, everyRank_zero]
    rw [hback]
    exact isAdjoint_zero
  obtain ⟨shape, d, hshape, hd⟩ := allGatherAlongDim_accepted ⟨0, hn⟩ h
  have hlt := lt_of_normalizeDim hd
  rw [allGatherAlongDim_eq hshape hd] at h
  obtain rfl := Option.some.inj h
  have hgshape : ∀ r, (g r).shape = shape.set d (n * shape.getD d 0) := hg
  refine ⟨_, allGatherAlongDimBackward_eq hlt hd hgshape, fun r => (hshape r).symm, ?_⟩
  calc ∑ r, dot (join x shape d) (g r)
      = ∑ r, ∑ s, dot (x s) (chunkAt (g r) d n s) :=
        Finset.sum_congr rfl fun r _ => dot_join hlt hshape (hgshape r)
    _ = ∑ s, ∑ r, dot (x s) (chunkAt (g r) d n s) := Finset.sum_comm
    _ = ∑ s, dot (x s) (Tensor.total shape fun r => chunkAt (g r) d n s) :=
        Finset.sum_congr rfl fun s _ => by rw [← hshape s, dot_total]

end Adjoint

/-! ### The asynchronous forms -/

section Async

variable {shape : List ℕ} {x y y' g : Fin n → Tensor α} {seqDim headDim gatherDim : ℤ}
  {sd hd gd d w : ℕ}

/-- Along two axes, the exchange in one message and the exchange in parts are the same. -/
theorem ulyssesAllToAll_eq_seqAllToAll (hn : 1 < n) (hshape : ∀ r, (x r).shape = shape)
    (hh : normalizeDim headDim shape.length = some hd)
    (hs : normalizeDim seqDim shape.length = some sd) (hne : hd ≠ sd)
    (hsize : shape.getD hd 0 = n * w) :
    ulyssesAllToAll x headDim seqDim = seqAllToAll x headDim seqDim := by
  have hhd := lt_of_normalizeDim hh
  have hsd := lt_of_normalizeDim hs
  have hsame : (shape.set hd w).getD sd 0 = shape.getD sd 0 := getD_set_of_ne hne
  rw [ulyssesAllToAll_eq hn hshape hh hs hne hsize, seqAllToAll_eq hshape hh hs hsize]
  congr 1
  funext r
  rw [join, hsame]
  refine ofEntries_congr fun idx hidx => ?_
  obtain ⟨-, -, hb, -⟩ := hidx.split_set (by simpa using hsd)
  obtain ⟨hdiv, hmod⟩ := div_mod_lt hb
  have hvalid : Valid (shape.set hd w) (idx.set sd (idx.getD sd 0 % shape.getD sd 0)) :=
    hidx.set_index (by simpa using hsd) (by rwa [hsame])
  have hwidth : (shape.set hd w).getD hd 0 = w := getD_set_self hhd
  have hwhole : shape = (shape.set hd w).set hd (n * (shape.set hd w).getD hd 0) := by
    rw [hwidth, List.set_set, ← hsize, set_getD_self hhd]
  rw [entryAt_of_lt _ hdiv, entryAt_of_lt _ hdiv,
    chunkAt_eq (by simpa using hhd) ((hshape _).trans hwhole), entry_ofEntries _ hvalid, hwidth,
    getD_set_of_ne hne.symm]

/-- The backward exchange is the exchange with the axes swapped. -/
theorem asyncUlyssesBackward_eq (hn : 1 < n) (hx : ∀ r, (x r).shape.length = shape.length)
    (hg : ∀ r, (g r).shape.length = shape.length)
    (hs : normalizeDim seqDim shape.length = some sd)
    (hh : normalizeDim headDim shape.length = some hd) (hne : sd ≠ hd) :
    asyncUlyssesBackward x g seqDim headDim = ulyssesAllToAll g seqDim headDim := by
  have hseqs : (everyRank fun r => normalizeDim seqDim (x r).shape.length) = some fun _ => sd :=
    everyRank_eq_some_iff.2 fun r => by rw [hx, hs]
  have hheads : (everyRank fun r => normalizeDim headDim (x r).shape.length) = some fun _ => hd :=
    everyRank_eq_some_iff.2 fun r => by rw [hx, hh]
  have hagain : normalizeDim sd shape.length = some sd :=
    normalizeDim_of_lt (lt_of_normalizeDim hs)
  rw [asyncUlyssesBackward, ulyssesAllToAll, if_neg (by omega), if_neg (by omega), hseqs, hheads]
  simp only [Option.bind_eq_bind, Option.bind_some, prepareUlyssesSend, hg, hagain, hs, hh,
    if_neg hne]

/-- What an accepted launch of an exchange satisfies. -/
theorem asyncUlysses_accepted (hn : 1 < n)
    (h : waitAll (asyncUlyssesSeqToHeadLaunch x seqDim headDim) = some y) :
    ∃ shape sd hd w, (∀ r, (x r).shape = shape) ∧ normalizeDim seqDim shape.length = some sd ∧
      normalizeDim headDim shape.length = some hd ∧ hd ≠ sd ∧ shape.getD hd 0 = n * w := by
  obtain ⟨handles, hhandles, -⟩ := Option.bind_eq_some_iff.1 h
  rw [asyncUlyssesSeqToHeadLaunch, if_neg (by omega)] at hhandles
  obtain ⟨seqs, hseqs, hhandles⟩ := Option.bind_eq_some_iff.1 hhandles
  obtain ⟨sends, hsends, hhandles⟩ := Option.bind_eq_some_iff.1 hhandles
  obtain ⟨output, houtput, -⟩ := Option.bind_eq_some_iff.1 hhandles
  rw [everyRank_eq_some_iff] at hseqs hsends
  have hcommon : ∀ s r, (sends s).shape = (sends r).shape := by
    rw [allToAll] at houtput
    split_ifs at houtput with hall
    exact fun s r => (hall s r).1
  have hsend : ∀ r, ∃ hd w, normalizeDim headDim (x r).shape.length = some hd ∧ seqs r ≠ hd ∧
      (x r).shape.getD hd 0 = n * w ∧ (sends r).shape = n :: (x r).shape.set hd w := by
    intro r
    obtain ⟨hd, hh, hr⟩ := Option.bind_eq_some_iff.1 (hsends r)
    split_ifs at hr with hne
    have hlt := lt_of_normalizeDim hh
    rw [prepareUlyssesSend, normalizeDim_of_lt hlt, Option.bind_eq_bind, Option.bind_some] at hr
    by_cases hmod : (x r).shape.getD hd 0 % n = 0
    · have hsize : (x r).shape.getD hd 0 = n * ((x r).shape.getD hd 0 / n) :=
        (Nat.mul_div_cancel' (Nat.dvd_of_mod_eq_zero hmod)).symm
      rw [prepareSend_eq (x r) hlt (by omega) hsize] at hr
      exact ⟨hd, _, hh, hne, hsize, by rw [← Option.some.inj hr, shape_ofEntries]⟩
    · simp only [prepareSend, ne_eq, hmod, not_false_eq_true, if_true] at hr
      cases hr
  have r₀ : Fin n := ⟨0, by omega⟩
  obtain ⟨hd, w, hh, hne, hsize, hset⟩ := hsend r₀
  refine ⟨_, seqs r₀, hd, w, fun r => ?_, hseqs r₀, hh, hne.symm, hsize⟩
  obtain ⟨hd', w', hh', -, hsize', hset'⟩ := hsend r
  have heq := hcommon r r₀
  rw [hset, hset'] at heq
  have heq := (List.cons.inj heq).2
  have hlength : (x r).shape.length = (x r₀).shape.length := by
    simpa using congrArg List.length heq
  rw [hlength, hh] at hh'
  cases hh'
  exact shape_eq_of_set heq (hlength ▸ lt_of_normalizeDim hh) hsize' hsize

/-- What an accepted launch of an all-gather satisfies. -/
theorem asyncAllGather_accepted (hn : 1 < n)
    (h : waitAll (asyncCpAllgatherLaunch x gatherDim) = some y) :
    ∃ shape d, (∀ r, (x r).shape = shape) ∧ normalizeDim gatherDim shape.length = some d := by
  obtain ⟨handles, hhandles, -⟩ := Option.bind_eq_some_iff.1 h
  rw [asyncCpAllgatherLaunch, if_neg (by omega)] at hhandles
  obtain ⟨dims, hdims, hhandles⟩ := Option.bind_eq_some_iff.1 hhandles
  obtain ⟨output, houtput, -⟩ := Option.bind_eq_some_iff.1 hhandles
  rw [everyRank_eq_some_iff] at hdims
  have hcommon : ∀ s r, (moveDimToFront (x s) (dims s)).shape =
      (moveDimToFront (x r) (dims r)).shape := by
    rw [cat] at houtput
    split_ifs at houtput with hall
    exact hall
  have r₀ : Fin n := ⟨0, by omega⟩
  refine ⟨_, dims r₀, fun r => ?_, hdims r₀⟩
  have hlt := fun r => lt_of_normalizeDim (hdims r)
  have heq := hcommon r r₀
  rw [(moveDimToFront_spec (hlt r)).1, (moveDimToFront_spec (hlt r₀)).1] at heq
  obtain ⟨hsize, hrest⟩ := List.cons.inj heq
  have hlength : (x r).shape.length = (x r₀).shape.length := by
    have := congrArg List.length hrest
    have := hlt r
    have := hlt r₀
    simp only [List.length_append, List.length_take, List.length_drop] at *
    omega
  have hdim : dims r = dims r₀ := by
    have := hdims r
    rw [hlength, hdims r₀] at this
    exact (Option.some.inj this).symm
  rw [hdim] at hsize hrest
  obtain ⟨hbefore, hafter⟩ := List.append_inj hrest (by simp [hlength])
  rw [split_getD (hdim ▸ hlt r : dims r₀ < (x r).shape.length), hbefore, hsize, hafter,
    ← split_getD (hlt r₀)]

/-- The launched exchange is the synchronous one, in both directions. -/
theorem asyncUlysses_eq (hn : 1 < n)
    (h : waitAll (asyncUlyssesSeqToHeadLaunch x seqDim headDim) = some y)
    (hg : ∀ r, (g r).shape = (y r).shape) :
    seqAllToAll x headDim seqDim = some y ∧
      asyncUlyssesBackward x g seqDim headDim = seqAllToAllBackward g headDim seqDim := by
  obtain ⟨shape, sd, hd, w, hshape, hs, hh, hne, hsize⟩ := asyncUlysses_accepted hn h
  rw [waitAll_ulysses hshape, ulyssesSeqToHead,
    ulyssesAllToAll_eq_seqAllToAll hn hshape hh hs hne hsize] at h
  refine ⟨h, ?_⟩
  rw [seqAllToAll_eq hshape hh hs hsize] at h
  obtain rfl := Option.some.inj h
  obtain ⟨whole, hwhole⟩ : ∃ whole,
      whole = (shape.set hd w).set sd (n * (shape.set hd w).getD sd 0) := ⟨_, rfl⟩
  have hgshape : ∀ r, (g r).shape = whole := fun r => (hg r).trans hwhole.symm
  have hlength : shape.length = whole.length := by
    rw [hwhole, List.length_set, List.length_set]
  have hgathered : whole.getD sd 0 = n * (shape.set hd w).getD sd 0 := by
    rw [hwhole, getD_set_self (by simpa using lt_of_normalizeDim hs)]
  rw [asyncUlyssesBackward_eq hn (fun r => by rw [hshape])
      (fun r => by rw [hgshape, hlength]) hs hh hne.symm,
    ulyssesAllToAll_eq_seqAllToAll hn hgshape (hlength ▸ hs) (hlength ▸ hh) hne.symm hgathered,
    seqAllToAllBackward]

/-- The launched all-gather is the synchronous one, in both directions. -/
theorem asyncAllGather_eq (hn : 1 < n)
    (h : waitAll (asyncCpAllgatherLaunch x gatherDim) = some y)
    (hg : ∀ r, (g r).shape = (y r).shape) :
    allGatherAlongDim x gatherDim = some y ∧
      asyncAllGatherBackward x g gatherDim = allGatherAlongDimBackward g gatherDim := by
  obtain ⟨shape, d, hshape, hd⟩ := asyncAllGather_accepted hn h
  have hlt := lt_of_normalizeDim hd
  rw [waitAll_allgather hshape, flexCpAllgather_eq hn hshape hd] at h
  obtain rfl := Option.some.inj h
  refine ⟨allGatherAlongDim_eq hshape hd, ?_⟩
  have hgshape : ∀ r, (g r).shape = shape.set d (n * shape.getD d 0) := hg
  have hdims : (everyRank fun r => normalizeDim gatherDim (x r).shape.length) = some fun _ => d :=
    everyRank_eq_some_iff.2 fun r => by rw [hshape, hd]
  rw [allGatherAlongDimBackward_eq hlt hd hgshape, asyncAllGatherBackward, if_neg (by omega)]
  simp only [hdims, allReduce_eq hgshape, Option.bind_eq_bind, Option.bind_some]
  exact everyRank_eq_some_iff.2 fun r => by
    rw [torchChunk_eq (getD_set_self hlt), chunkAt_total hlt hgshape]

theorem waitAll_ulysses_alone (hn : n ≤ 1) :
    waitAll (asyncUlyssesSeqToHeadLaunch x seqDim headDim) = some x := by
  rw [asyncUlyssesSeqToHeadLaunch, if_pos hn]
  exact everyRank_eq_some_iff.2 fun r => rfl

theorem waitAll_allgather_alone (hn : n ≤ 1) :
    waitAll (asyncCpAllgatherLaunch x gatherDim) = some x := by
  rw [asyncCpAllgatherLaunch, if_pos hn]
  exact everyRank_eq_some_iff.2 fun r => rfl

theorem isAdjoint_asyncUlysses
    (h : waitAll (asyncUlyssesSeqToHeadLaunch x seqDim headDim) = some y)
    (hg : ∀ r, (g r).shape = (y r).shape) :
    IsAdjoint x y g (asyncUlyssesBackward x g seqDim headDim) := by
  by_cases hn : n ≤ 1
  · rw [waitAll_ulysses_alone hn] at h
    obtain rfl := Option.some.inj h
    exact ⟨g, if_pos hn, hg, rfl⟩
  · obtain ⟨hforward, hbackward⟩ := asyncUlysses_eq (by omega) h hg
    rw [hbackward]
    exact isAdjoint_seqAllToAll hforward hg

theorem isAdjoint_asyncAllGather
    (h : waitAll (asyncCpAllgatherLaunch x gatherDim) = some y)
    (hg : ∀ r, (g r).shape = (y r).shape) :
    IsAdjoint x y g (asyncAllGatherBackward x g gatherDim) := by
  by_cases hn : n ≤ 1
  · rw [waitAll_allgather_alone hn] at h
    obtain rfl := Option.some.inj h
    exact ⟨g, if_pos hn, hg, rfl⟩
  · obtain ⟨hforward, hbackward⟩ := asyncAllGather_eq (by omega) h hg
    rw [hbackward]
    exact isAdjoint_allGatherAlongDim hforward hg

end Async

/-! ### A group of one -/

section Alone

variable {shape : List ℕ} {scatterDim gatherDim cpDim : ℤ} {d : ℕ}

theorem chunkAt_alone {t : Tensor α} (hd : d < t.shape.length) : chunkAt t d 1 0 = t := by
  have hchunk := chunkAt_eq (n := 1) (t := t) hd (by rw [Nat.one_mul, set_getD_self hd]) 0
  refine hchunk.trans (eq_ofEntries rfl fun idx hidx => ?_).symm
  rw [Fin.val_zero, Nat.zero_mul, Nat.zero_add, set_getD_self (hidx.length_eq ▸ hd)]

theorem join_alone {parts : Fin 1 → Tensor α} (hd : d < shape.length)
    (hparts : ∀ a, (parts a).shape = shape) : join parts shape d = parts 0 := by
  refine (eq_ofEntries ?_ fun idx hidx => ?_).symm
  · rw [hparts, Nat.one_mul, set_getD_self hd]
  · rw [Nat.one_mul, set_getD_self hd] at hidx
    obtain ⟨-, -, hb, -⟩ := hidx.split hd
    rw [Nat.div_eq_of_lt hb, Nat.mod_eq_of_lt hb, entryAt_of_lt _ Nat.one_pos,
      set_getD_self (hidx.length_eq ▸ hd)]
    rfl

theorem seqAllToAll_alone {x y : Fin 1 → Tensor α}
    (h : seqAllToAll x scatterDim gatherDim = some y) : y = x := by
  obtain ⟨shape, sd, gd, w, hshape, hs, hg, hsize⟩ := seqAllToAll_accepted 0 h
  have hsd := lt_of_normalizeDim hs
  rw [Nat.one_mul] at hsize
  have hchunk : ∀ s : Fin 1, chunkAt (x s) sd 1 0 = x s := fun s =>
    chunkAt_alone (by rw [hshape]; exact hsd)
  rw [seqAllToAll_eq hshape hs hg (by rw [Nat.one_mul, hsize]), ← hsize, set_getD_self hsd] at h
  obtain rfl := Option.some.inj h
  funext r
  obtain rfl := Fin.fin_one_eq_zero r
  simp only [Fin.val_zero, hchunk]
  exact join_alone (lt_of_normalizeDim hg) hshape

theorem allGatherAlongDim_forward_alone {x y : Fin 1 → Tensor α}
    (h : allGatherAlongDim x cpDim = some y) : y = x := by
  obtain ⟨shape, d, hshape, hd⟩ := allGatherAlongDim_accepted 0 h
  rw [allGatherAlongDim_eq hshape hd] at h
  obtain rfl := Option.some.inj h
  funext r
  obtain rfl := Fin.fin_one_eq_zero r
  exact join_alone (lt_of_normalizeDim hd) hshape

theorem allGatherAlongDim_backward_alone {x y g dx : Fin 1 → Tensor α}
    (h : allGatherAlongDim x cpDim = some y) (hg : ∀ r, (g r).shape = (y r).shape)
    (hback : allGatherAlongDimBackward g cpDim = some dx) : dx = g := by
  obtain ⟨shape, d, hshape, hd⟩ := allGatherAlongDim_accepted 0 h
  obtain rfl := allGatherAlongDim_forward_alone h
  have hlt := lt_of_normalizeDim hd
  have hgshape : ∀ r, (g r).shape = shape := fun r => (hg r).trans (hshape r)
  have hchunk : ∀ r : Fin 1, chunkAt (g r) d 1 0 = g r := fun r =>
    chunkAt_alone (by rw [hgshape]; exact hlt)
  rw [allGatherAlongDimBackward_eq hlt hd fun r => by
    rw [hgshape, Nat.one_mul, set_getD_self hlt]] at hback
  obtain rfl := Option.some.inj hback
  funext r
  obtain rfl := Fin.fin_one_eq_zero r
  simp only [Fin.val_zero, hchunk]
  refine (eq_ofEntries (hgshape 0) fun idx _ => ?_).symm
  rw [Finset.univ_unique, Finset.sum_singleton]
  rfl

end Alone

section Same

variable {x y y' g : Fin n → Tensor α} {seqDim headDim gatherDim : ℤ}

/-- Both forms of an exchange, where both are accepted. -/
theorem seqAllToAll_eq_asyncUlysses
    (h : waitAll (asyncUlyssesSeqToHeadLaunch x seqDim headDim) = some y)
    (h' : seqAllToAll x headDim seqDim = some y') (hg : ∀ r, (g r).shape = (y r).shape) :
    y' = y ∧ seqAllToAllBackward g headDim seqDim = asyncUlyssesBackward x g seqDim headDim := by
  by_cases hn : 1 < n
  · obtain ⟨hforward, hbackward⟩ := asyncUlysses_eq hn h hg
    rw [hforward] at h'
    exact ⟨(Option.some.inj h').symm, hbackward.symm⟩
  rw [waitAll_ulysses_alone (by omega)] at h
  obtain rfl := Option.some.inj h
  rw [asyncUlyssesBackward, if_pos (by omega)]
  rcases (by omega : n = 0 ∨ n = 1) with rfl | rfl
  · obtain ⟨dx, hdx, -⟩ := isAdjoint_seqAllToAll (g := g) h' fun r => r.elim0
    rw [hdx]
    exact ⟨funext fun r => r.elim0, congrArg some (funext fun r => r.elim0)⟩
  · obtain rfl := seqAllToAll_alone h'
    obtain ⟨dx, hdx, -⟩ := isAdjoint_seqAllToAll h' hg
    rw [hdx, seqAllToAll_alone hdx]
    exact ⟨rfl, rfl⟩

/-- Both forms of an all-gather, where both are accepted. -/
theorem allGatherAlongDim_eq_asyncAllGather
    (h : waitAll (asyncCpAllgatherLaunch x gatherDim) = some y)
    (h' : allGatherAlongDim x gatherDim = some y') (hg : ∀ r, (g r).shape = (y r).shape) :
    y' = y ∧ allGatherAlongDimBackward g gatherDim = asyncAllGatherBackward x g gatherDim := by
  by_cases hn : 1 < n
  · obtain ⟨hforward, hbackward⟩ := asyncAllGather_eq hn h hg
    rw [hforward] at h'
    exact ⟨(Option.some.inj h').symm, hbackward.symm⟩
  rw [waitAll_allgather_alone (by omega)] at h
  obtain rfl := Option.some.inj h
  rw [asyncAllGatherBackward, if_pos (by omega)]
  rcases (by omega : n = 0 ∨ n = 1) with rfl | rfl
  · obtain ⟨dx, hdx, -⟩ := isAdjoint_allGatherAlongDim (g := g) h' fun r => r.elim0
    rw [hdx]
    exact ⟨funext fun r => r.elim0, congrArg some (funext fun r => r.elim0)⟩
  · obtain rfl : y' = x := allGatherAlongDim_forward_alone h'
    obtain ⟨dx, hdx, -⟩ := isAdjoint_allGatherAlongDim h' hg
    rw [hdx, allGatherAlongDim_backward_alone h' hg hdx]
    exact ⟨rfl, rfl⟩

end Same

end HyperParallel.ContextParallel

import HyperParallel.Lib.Exchange
import HyperParallel.Lib.Tensor

/-!
# Collectives of context parallelism

`distributed/context_parallel/collectives.py`, on all ranks of a group.

* `prepareUlyssesSend`, `reconstructAllToAll`, `ulyssesAllToAll`: one axis split, another gathered;
* `flexCpAllgather`: all-gather along an axis;
* `asyncUlyssesSeqToHeadLaunch`, `asyncCpAllgatherLaunch`, `AsyncCPCollective.wait`;
* `prepareSend_eq`, `reconstructAllToAll_eq`, `ulyssesAllToAll_eq`: what the exchange moves.
-/

namespace HyperParallel.ContextParallel

open Exchange

variable {α : Type} [Zero α] {n : ℕ}

/-! ### Axes -/

/-- `_normalize_dim` -/
def normalizeDim (dim : ℤ) (ndim : ℕ) : Option ℕ :=
  let normalized := if dim < 0 then dim + ndim else dim
  if normalized < 0 ∨ normalized ≥ ndim then none else some normalized.toNat

/-- The part of `_prepare_ulysses_send` behind its normalization, which `_ulysses_all_to_all`
repeats: the axis is split by destination, and the destinations go in front. -/
def prepareSend (tensor : Tensor α) (scatterDim worldSize : ℕ) : Option (Tensor α) := do
  let scatterSize := tensor.shape.getD scatterDim 0
  if scatterSize % worldSize ≠ 0 then none
  else
    let splitShape := tensor.shape.take scatterDim ++
      worldSize :: scatterSize / worldSize :: tensor.shape.drop (scatterDim + 1)
    let split ← tensor.reshape splitShape
    return split.permute (Tensor.frontPerm scatterDim (tensor.shape.length + 1))

/-- `_prepare_ulysses_send` -/
def prepareUlyssesSend (tensor : Tensor α) (scatterDim : ℤ) (worldSize : ℕ) :
    Option (Tensor α) := do
  let scatterDim ← normalizeDim scatterDim tensor.shape.length
  prepareSend tensor scatterDim worldSize

/-- `_reconstruct_all_to_all`: the sources go in front of the gathered axis and are merged with
it. -/
def reconstructAllToAll (output : Tensor α) (concatDim : ℕ) : Option (Tensor α) :=
  let reconstructed := output.permute (Tensor.backPerm concatDim output.shape.length)
  let shape := reconstructed.shape
  let merged := shape.getD concatDim 0 * shape.getD (concatDim + 1) 0
  reconstructed.reshape (shape.take concatDim ++ merged :: shape.drop (concatDim + 2))

/-! ### Collectives -/

/-- An entry of the tensor of rank `k`. -/
def entryAt (x : Fin n → Tensor α) (k : ℕ) (idx : List ℕ) : α :=
  if h : k < n then (x ⟨k, h⟩).entry idx else 0

/-- `all_to_all_single` in equal parts of the first axis. -/
def allToAll (send : Fin n → Tensor α) : Option (Fin n → Tensor α) :=
  if ∀ s r, (send s).shape = (send r).shape ∧ (send s).shape.headD 0 % n = 0 then
    some fun r => Tensor.ofEntries (send r).shape fun
      | [] => 0
      | a :: rest =>
        let part := (send r).shape.headD 0 / n
        entryAt send (a / part) ((r.val * part + a % part) :: rest)
  else none

/-- `torch.cat` of tensors of one shape. -/
def cat (x : Fin n → Tensor α) (dim : ℕ) : Option (Fin n → Tensor α) :=
  if ∀ s r, (x s).shape = (x r).shape then
    some fun r =>
      let size := (x r).shape.getD dim 0
      Tensor.ofEntries ((x r).shape.set dim (n * size)) fun idx =>
        entryAt x (idx.getD dim 0 / size) (idx.set dim (idx.getD dim 0 % size))
  else none

/-- `_AllGatherAlongDim` on all ranks, for a size above 1. -/
def flexCpAllgather (x : Fin n → Tensor α) (cpDim : ℤ) : Option (Fin n → Tensor α) :=
  if n ≤ 1 then some x
  else do
    let dims ← everyRank fun r => normalizeDim cpDim (x r).shape.length
    let gathered ← everyRank fun r => (cat x (dims r)).map (· r)
    return gathered

/-- `_ulysses_all_to_all` on all ranks. -/
def ulyssesAllToAll (x : Fin n → Tensor α) (scatterDim gatherDim : ℤ) :
    Option (Fin n → Tensor α) :=
  if n ≤ 1 then some x
  else do
    let sends ← everyRank fun r => do
      let scatter ← normalizeDim scatterDim (x r).shape.length
      let gather ← normalizeDim gatherDim (x r).shape.length
      if scatter = gather then none else prepareSend (x r) scatter n
    let received ← allToAll sends
    everyRank fun r => do
      let gather ← normalizeDim gatherDim (x r).shape.length
      reconstructAllToAll (received r) gather

/-- `ulysses_seq_to_head` and `ulysses_head_to_seq` -/
def ulyssesSeqToHead (x : Fin n → Tensor α) (seqDim headDim : ℤ) : Option (Fin n → Tensor α) :=
  ulyssesAllToAll x headDim seqDim

def ulyssesHeadToSeq (x : Fin n → Tensor α) (seqDim headDim : ℤ) : Option (Fin n → Tensor α) :=
  ulyssesAllToAll x seqDim headDim

/-! ### Launched and waited for -/

/-- What a launched collective does once it is waited for. -/
inductive CollectiveKind
  | allgather
  | ulysses
  deriving DecidableEq

/-- `AsyncCPCollective`; `work` says whether a collective was launched at all. -/
structure AsyncCPCollective (α : Type) [Zero α] where
  tensor : Tensor α
  work : Bool
  output : Tensor α
  kind : CollectiveKind
  seqDim : ℕ
  waited : Bool

/-- `_move_dim_to_front`, behind its normalization -/
def moveDimToFront (tensor : Tensor α) (dim : ℕ) : Tensor α :=
  if dim = 0 then tensor else tensor.permute (Tensor.frontPerm dim tensor.shape.length)

/-- `_move_dim_from_front`, behind its normalization -/
def moveDimFromFront (tensor : Tensor α) (dim : ℕ) : Tensor α :=
  if dim = 0 then tensor else tensor.permute (Tensor.backPerm dim tensor.shape.length)

/-- What `AsyncCPCollective.wait` materializes: `_AsyncAllGatherWait` or `_AsyncUlyssesWait`, or the
tensor itself where nothing was launched. -/
def AsyncCPCollective.result (c : AsyncCPCollective α) : Option (Tensor α) :=
  if c.work then
    match c.kind with
    | .allgather => some (moveDimFromFront c.output c.seqDim)
    | .ulysses => reconstructAllToAll c.output c.seqDim
  else some c.tensor

/-- `AsyncCPCollective.wait` -/
def AsyncCPCollective.wait (c : AsyncCPCollective α) : Option (Tensor α × AsyncCPCollective α) :=
  if c.waited then none else c.result.map fun result => (result, { c with waited := true })

/-- `async_cp_allgather_launch` on all ranks. -/
def asyncCpAllgatherLaunch (x : Fin n → Tensor α) (gatherDim : ℤ) :
    Option (Fin n → AsyncCPCollective α) :=
  if n ≤ 1 then
    some fun r => ⟨x r, false, x r, .allgather, 0, false⟩
  else do
    let dims ← everyRank fun r => normalizeDim gatherDim (x r).shape.length
    -- all_gather_into_tensor appends along the first axis
    let output ← cat (fun r => moveDimToFront (x r) (dims r)) 0
    return fun r => ⟨x r, true, output r, .allgather, dims r, false⟩

/-- `async_ulysses_seq_to_head_launch` on all ranks. -/
def asyncUlyssesSeqToHeadLaunch (x : Fin n → Tensor α) (seqDim headDim : ℤ) :
    Option (Fin n → AsyncCPCollective α) :=
  if n ≤ 1 then
    some fun r => ⟨x r, false, x r, .ulysses, 0, false⟩
  else do
    let seqs ← everyRank fun r => normalizeDim seqDim (x r).shape.length
    let sends ← everyRank fun r => do
      let head ← normalizeDim headDim (x r).shape.length
      if seqs r = head then none else prepareUlyssesSend (x r) head n
    let output ← allToAll sends
    return fun r => ⟨x r, true, output r, .ulysses, seqs r, false⟩

/-! ### What the exchange moves -/

theorem normalizeDim_of_lt {d ndim : ℕ} (h : d < ndim) : normalizeDim d ndim = some d := by
  have hneg : ¬ ((d : ℤ) < 0 ∨ (d : ℤ) ≥ ndim) := by omega
  have hpos : ¬ (d : ℤ) < 0 := by omega
  simp only [normalizeDim, if_neg hpos, if_neg hneg, Int.toNat_natCast]

theorem lt_of_normalizeDim {dim : ℤ} {d ndim : ℕ} (h : normalizeDim dim ndim = some d) :
    d < ndim := by
  simp only [normalizeDim] at h
  split_ifs at h <;> cases h <;> omega

/-- What a rank sends: part `a` of the axis for destination `a`. -/
theorem prepareSend_eq (tensor : Tensor α) {d w : ℕ} (hd : d < tensor.shape.length) (hn : 0 < n)
    (hsize : tensor.shape.getD d 0 = n * w) :
    prepareSend tensor d n = some (Tensor.ofEntries (n :: tensor.shape.set d w) fun idx =>
      tensor.entry (idx.tail.set d (idx.headD 0 * w + idx.tail.getD d 0))) := by
  have hshape : tensor.shape = tensor.shape.take d ++ n * w :: tensor.shape.drop (d + 1) := by
    rw [← hsize, ← split_getD hd]
  have hbefore : (tensor.shape.take d).length = d := List.length_take_of_le hd.le
  have hafter : d + ((w :: tensor.shape.drop (d + 1)).length + 1) = tensor.shape.length + 1 := by
    rw [List.length_cons, List.length_drop]
    omega
  obtain ⟨split, hsplit, hsplitShape, hsplitEntry⟩ := Tensor.reshape_split hshape
  obtain ⟨hfrontShape, hfrontEntry⟩ := Tensor.permute_front hsplitShape
  rw [hbefore, hafter] at hfrontShape hfrontEntry
  simp only [prepareSend, hsize, Nat.mul_mod_right, ne_eq, not_true_eq_false, if_false,
    Nat.mul_div_cancel_left w hn, hsplit, Option.bind_eq_bind, Option.bind_some]
  change some _ = some _
  congr 1
  apply Tensor.eq_ofEntries
  · rw [hfrontShape, set_eq hd]
  · intro idx hidx
    cases idx with
    | nil => cases hidx
    | cons a idx =>
      obtain ⟨ha, hidx⟩ := List.forall₂_cons.1 hidx
      obtain ⟨hparts, hxs, hb, hys⟩ := Valid.split_set hidx hd
      have hidxd : d < idx.length := by
        have := hidx.length_eq
        simp only [List.length_set] at this
        omega
      have hentry := hfrontEntry (idx.take d) (idx.getD d 0 :: idx.drop (d + 1)) a hxs
        (.cons hb hys) ha
      rw [← hparts, hsplitEntry _ _ _ _ hxs hys ha hb] at hentry
      rw [hentry, List.tail_cons, List.headD_cons, set_eq hidxd]

/-- The parts of the gathered axis, moved to their place and merged. -/
theorem reconstructAllToAll_eq_reshape {output : Tensor α} {shape : List ℕ} {d : ℕ}
    (hshape : output.shape = n :: shape) (hd : d < shape.length) :
    reconstructAllToAll output d =
      (output.permute (Tensor.backPerm d (shape.length + 1))).reshape
        (shape.set d (n * shape.getD d 0)) := by
  have hbefore : (shape.take d).length = d := List.length_take_of_le hd.le
  have hafter : d + ((shape.getD d 0 :: shape.drop (d + 1)).length + 1) = shape.length + 1 := by
    rw [List.length_cons, List.length_drop]
    omega
  have hfront : output.shape = n :: (shape.take d ++ shape.getD d 0 :: shape.drop (d + 1)) := by
    rw [← split_getD hd, hshape]
  obtain ⟨hbackShape, -⟩ := Tensor.permute_back hfront
  rw [hbefore, hafter] at hbackShape
  rw [reconstructAllToAll, hshape, List.length_cons, hbackShape, set_eq hd]
  congr 2
  · rw [List.take_left' hbefore]
  · congr 1
    · simp [hbefore]
    · nth_rewrite 1 [← hbefore]
      rw [List.drop_length_add_append]
      rfl

/-- What a rank puts together: the parts of the gathered axis, source by source. -/
theorem reconstructAllToAll_eq (output : Tensor α) {shape : List ℕ} {d : ℕ}
    (hshape : output.shape = n :: shape) (hd : d < shape.length) :
    reconstructAllToAll output d =
      some (Tensor.ofEntries (shape.set d (n * shape.getD d 0)) fun idx =>
        output.entry (idx.getD d 0 / shape.getD d 0 ::
          idx.set d (idx.getD d 0 % shape.getD d 0))) := by
  have hbefore : (shape.take d).length = d := List.length_take_of_le hd.le
  have hafter : d + ((shape.getD d 0 :: shape.drop (d + 1)).length + 1) = shape.length + 1 := by
    rw [List.length_cons, List.length_drop]
    omega
  have hfront : output.shape =
      n :: (shape.take d ++ shape.getD d 0 :: shape.drop (d + 1)) := by rw [← split_getD hd, hshape]
  obtain ⟨hbackShape, hbackEntry⟩ := Tensor.permute_back hfront
  rw [hbefore, hafter] at hbackShape hbackEntry
  obtain ⟨merged, hmerged, hmergedShape, hmergedEntry⟩ := Tensor.reshape_merge hbackShape
  have hmergedDims : reconstructAllToAll output d = some merged := by
    rw [reconstructAllToAll_eq_reshape hshape hd, ← hmerged, set_eq hd]
  rw [hmergedDims]
  congr 1
  apply Tensor.eq_ofEntries
  · rw [hmergedShape, set_eq hd]
  · intro idx hidx
    obtain ⟨hsplit, hxs, hb, hys⟩ := hidx.split_set hd
    have hidxd : d < idx.length := by
      have := hidx.length_eq
      simp only [List.length_set] at this
      omega
    obtain ⟨hdiv, hmod⟩ := div_mod_lt hb
    have hentry := hmergedEntry _ _ _ _ hxs hys hdiv hmod
    rw [Nat.div_add_mod', ← hsplit, hbackEntry _ _ _ hxs (.cons hmod hys) hdiv,
      ← set_eq hidxd] at hentry
    exact hentry

theorem entryAt_of_lt (x : Fin n → Tensor α) {k : ℕ} (hk : k < n) (idx : List ℕ) :
    entryAt x k idx = (x ⟨k, hk⟩).entry idx := dif_pos hk

/-- The exchange of what all ranks have prepared. -/
theorem allToAll_eq (x : Fin n → Tensor α) (shape : List ℕ) (g : ℕ → List ℕ → List ℕ)
    (hn : 0 < n) :
    allToAll (fun s => Tensor.ofEntries (n :: shape) fun idx =>
        (x s).entry (g (idx.headD 0) idx.tail)) =
      some fun r : Fin n => Tensor.ofEntries (n :: shape) fun idx =>
        entryAt x (idx.headD 0) (g r idx.tail) := by
  rw [allToAll, if_pos fun _ _ => ⟨rfl, by simp⟩]
  congr 1
  funext r
  apply Tensor.ofEntries_congr
  intro idx hidx
  cases idx with
  | nil => cases hidx
  | cons a idx =>
    obtain ⟨ha, hrest⟩ := List.forall₂_cons.1 hidx
    simp only [Tensor.shape_ofEntries, List.headD_cons, Nat.div_self hn, Nat.div_one, Nat.mod_one,
      Nat.mul_one, Nat.add_zero, List.tail_cons]
    rw [entryAt_of_lt _ ha, entryAt_of_lt _ ha,
      Tensor.entry_ofEntries _ (List.forall₂_cons.2 ⟨r.isLt, hrest⟩)]
    rfl

/-- One axis split, another gathered, on all ranks. -/
theorem ulyssesAllToAll_eq {x : Fin n → Tensor α} {shape : List ℕ} (hn : 1 < n)
    (hshape : ∀ r, (x r).shape = shape) {scatterDim gatherDim : ℤ} {sd gd w : ℕ}
    (hs : normalizeDim scatterDim shape.length = some sd)
    (hg : normalizeDim gatherDim shape.length = some gd) (hne : sd ≠ gd)
    (hsize : shape.getD sd 0 = n * w) :
    ulyssesAllToAll x scatterDim gatherDim =
      some fun r => Tensor.ofEntries ((shape.set sd w).set gd (n * shape.getD gd 0)) fun idx =>
        entryAt x (idx.getD gd 0 / shape.getD gd 0)
          ((idx.set gd (idx.getD gd 0 % shape.getD gd 0)).set sd
            (r.val * w + idx.getD sd 0)) := by
  have hsd := lt_of_normalizeDim hs
  have hgd := lt_of_normalizeDim hg
  have hsends : (everyRank fun r => do
      let scatter ← normalizeDim scatterDim (x r).shape.length
      let gather ← normalizeDim gatherDim (x r).shape.length
      if scatter = gather then none else prepareSend (x r) scatter n) =
      some fun s => Tensor.ofEntries (n :: shape.set sd w) fun idx =>
        (x s).entry (idx.tail.set sd (idx.headD 0 * w + idx.tail.getD sd 0)) := by
    apply everyRank_eq_some_iff.2
    intro r
    have hsend := prepareSend_eq (x r) (by rw [hshape]; exact hsd) (by omega : 0 < n)
      (by rw [hshape]; exact hsize)
    rw [hshape] at hsend
    simp only [hshape, hs, hg, Option.bind_eq_bind, Option.bind_some, if_neg hne, hsend]
  have hexchange := allToAll_eq x (shape.set sd w)
    (fun a idx => idx.set sd (a * w + idx.getD sd 0)) (by omega)
  have hsame : (shape.set sd w).getD gd 0 = shape.getD gd 0 := getD_set_of_ne hne
  rw [ulyssesAllToAll, if_neg (by omega), hsends, Option.bind_eq_bind, Option.bind_some, hexchange,
    Option.bind_some]
  apply everyRank_eq_some_iff.2
  intro r
  have hput := reconstructAllToAll_eq (Tensor.ofEntries (n :: shape.set sd w) fun idx =>
    entryAt x (idx.headD 0) (idx.tail.set sd (r.val * w + idx.tail.getD sd 0))) rfl
    (by simpa using hgd)
  simp only [hshape, hg, Option.bind_eq_bind, Option.bind_some, hput, hsame]
  congr 1
  apply Tensor.ofEntries_congr
  intro idx hidx
  obtain ⟨-, -, hb, -⟩ := hidx.split_set (by simpa using hgd)
  obtain ⟨hdiv, hmod⟩ := div_mod_lt hb
  have hvalid : Valid (shape.set sd w) (idx.set gd (idx.getD gd 0 % shape.getD gd 0)) :=
    hidx.set_index (by simpa using hgd) (by rwa [hsame])
  rw [Tensor.entry_ofEntries _ (List.forall₂_cons.2 ⟨hdiv, hvalid⟩), List.headD_cons,
    List.tail_cons, getD_set_of_ne hne.symm]

/-- The tensors of all ranks side by side. -/
theorem cat_eq {x : Fin n → Tensor α} {shape : List ℕ} (hshape : ∀ r, (x r).shape = shape)
    (d : ℕ) :
    cat x d = some fun _ => Tensor.ofEntries (shape.set d (n * shape.getD d 0)) fun idx =>
      entryAt x (idx.getD d 0 / shape.getD d 0)
        (idx.set d (idx.getD d 0 % shape.getD d 0)) := by
  rw [cat, if_pos fun s r => by rw [hshape, hshape]]
  simp only [hshape]

theorem flexCpAllgather_eq {x : Fin n → Tensor α} {shape : List ℕ} (hn : 1 < n)
    (hshape : ∀ r, (x r).shape = shape) {cpDim : ℤ} {d : ℕ}
    (hd : normalizeDim cpDim shape.length = some d) :
    flexCpAllgather x cpDim =
      some fun _ => Tensor.ofEntries (shape.set d (n * shape.getD d 0)) fun idx =>
        entryAt x (idx.getD d 0 / shape.getD d 0)
          (idx.set d (idx.getD d 0 % shape.getD d 0)) := by
  have hdims : (everyRank fun r => normalizeDim cpDim (x r).shape.length) = some fun _ => d := by
    apply everyRank_eq_some_iff.2
    intro r
    rw [hshape, hd]
  rw [flexCpAllgather, if_neg (by omega), hdims, Option.bind_eq_bind, Option.bind_some]
  simp only [cat_eq hshape]
  exact everyRank_eq_some_iff.2 fun _ => rfl

/-! ### There and back -/

/-- Splitting the gathered axis again, and gathering the split one, restores every tensor. -/
theorem ulyssesAllToAll_inverse {x : Fin n → Tensor α} {shape : List ℕ} (hn : 1 < n)
    (hshape : ∀ r, (x r).shape = shape) {headDim seqDim : ℤ} {hd sd w : ℕ}
    (hh : normalizeDim headDim shape.length = some hd)
    (hs : normalizeDim seqDim shape.length = some sd) (hne : hd ≠ sd)
    (hsize : shape.getD hd 0 = n * w) :
    ∃ y, ulyssesSeqToHead x seqDim headDim = some y ∧
      ulyssesHeadToSeq y seqDim headDim = some x := by
  have hhd := lt_of_normalizeDim hh
  have hsd := lt_of_normalizeDim hs
  have hlength : ((shape.set hd w).set sd (n * shape.getD sd 0)).length = shape.length := by simp
  refine ⟨_, ulyssesAllToAll_eq hn hshape hh hs hne hsize, ?_⟩
  have hback := ulyssesAllToAll_eq hn
    (x := fun r => Tensor.ofEntries ((shape.set hd w).set sd (n * shape.getD sd 0)) fun idx =>
        entryAt x (idx.getD sd 0 / shape.getD sd 0)
          ((idx.set sd (idx.getD sd 0 % shape.getD sd 0)).set hd
            (r.val * w + idx.getD hd 0)))
    (fun _ => rfl) (hlength.symm ▸ hs) (hlength.symm ▸ hh) hne.symm
    (getD_set_self (by simpa using hsd))
  have hgather : ((shape.set hd w).set sd (n * shape.getD sd 0)).getD hd 0 = w := by
    rw [getD_set_of_ne hne.symm, getD_set_self hhd]
  rw [ulyssesHeadToSeq, hback, hgather]
  congr 1
  funext r
  have hsame : (((shape.set hd w).set sd (n * shape.getD sd 0)).set sd (shape.getD sd 0)).set hd
      (n * w) = shape := by
    rw [← hsize]
    exact set_restore hne hhd hsd
  symm
  apply Tensor.eq_ofEntries
  · rw [hshape, hsame]
  · rw [hsame]
    intro idx hidx
    have hidxLength := hidx.length_eq
    obtain ⟨-, -, hhead, -⟩ := hidx.split hhd
    obtain ⟨-, -, hseq, -⟩ := hidx.split hsd
    rw [hsize] at hhead
    obtain ⟨hdiv, hmod⟩ := div_mod_lt hhead
    have hrow : r.val * shape.getD sd 0 + idx.getD sd 0 < n * shape.getD sd 0 :=
      Blocks.index_lt r (⟨_, hseq⟩ : Fin (shape.getD sd 0))
    have hpos : 0 < shape.getD sd 0 := by omega
    have hvalid := (hidx.set_both (d := hd) hmod).set_both (d := sd) hrow
    have hdivRow : (r.val * shape.getD sd 0 + idx.getD sd 0) / shape.getD sd 0 = r.val := by
      rw [Nat.mul_comm, Nat.mul_add_div hpos, Nat.div_eq_of_lt hseq, Nat.add_zero]
    have hmodRow : (r.val * shape.getD sd 0 + idx.getD sd 0) % shape.getD sd 0 =
        idx.getD sd 0 := by
      rw [Nat.mul_comm, Nat.mul_add_mod, Nat.mod_eq_of_lt hseq]
    rw [entryAt_of_lt _ hdiv, Tensor.entry_ofEntries _ hvalid,
      getD_set_self (by simp only [List.length_set]; omega), getD_set_of_ne hne.symm,
      getD_set_self (by omega), hdivRow, hmodRow, entryAt_of_lt _ r.isLt, Nat.div_add_mod',
      set_restore hne (by omega) (by omega)]

/-- Whatever `ulysses_seq_to_head` accepts, `ulysses_head_to_seq` undoes. -/
theorem ulyssesHeadToSeq_seqToHead {x y : Fin n → Tensor α} {shape : List ℕ}
    (hshape : ∀ r, (x r).shape = shape) {seqDim headDim : ℤ}
    (h : ulyssesSeqToHead x seqDim headDim = some y) :
    ulyssesHeadToSeq y seqDim headDim = some x := by
  by_cases hn : n ≤ 1
  · rw [ulyssesSeqToHead, ulyssesAllToAll, if_pos hn] at h
    cases h
    rw [ulyssesHeadToSeq, ulyssesAllToAll, if_pos hn]
  · have hsome := h
    rw [ulyssesSeqToHead, ulyssesAllToAll, if_neg hn, Option.bind_eq_bind,
      Option.bind_eq_some_iff] at h
    obtain ⟨sends, hsends, -⟩ := h
    have hsend := everyRank_eq_some_iff.1 hsends ⟨0, by omega⟩
    rw [hshape] at hsend
    cases hh : normalizeDim headDim shape.length with
    | none => simp [hh] at hsend
    | some hd =>
      cases hs : normalizeDim seqDim shape.length with
      | none => simp [hh, hs] at hsend
      | some sd =>
        simp only [hh, hs, Option.bind_eq_bind, Option.bind_some, prepareSend, hshape] at hsend
        split_ifs at hsend with hne hmod
        have hsize : shape.getD hd 0 = n * (shape.getD hd 0 / n) :=
          (Nat.mul_div_cancel' (Nat.dvd_of_mod_eq_zero (not_not.1 hmod))).symm
        obtain ⟨y', hy', hback⟩ := ulyssesAllToAll_inverse (by omega) hshape hh hs hne hsize
        rw [hsome] at hy'
        rwa [← Option.some.inj hy'] at hback

/-! ### Launching and waiting -/

/-- Every rank waits for what it has launched. -/
def waitAll (launched : Option (Fin n → AsyncCPCollective α)) : Option (Fin n → Tensor α) :=
  launched.bind fun handles => everyRank fun r => (handles r).wait.map Prod.fst

theorem wait_result {c : AsyncCPCollective α} (h : c.waited = false) :
    c.wait.map Prod.fst = c.result := by
  rw [AsyncCPCollective.wait, h]
  cases hresult : c.result <;> rfl

theorem everyRank_eq_none {β : Type} {f : Fin n → Option β} (r : Fin n) (h : f r = none) :
    everyRank f = none := by
  rw [Option.eq_none_iff_forall_ne_some]
  intro g hg
  rw [everyRank_eq_some_iff] at hg
  simp [hg r] at h

/-- Launched and waited for, the ulysses exchange is the synchronous one. -/
theorem waitAll_ulysses {x : Fin n → Tensor α} {shape : List ℕ}
    (hshape : ∀ r, (x r).shape = shape) (seqDim headDim : ℤ) :
    waitAll (asyncUlyssesSeqToHeadLaunch x seqDim headDim) =
      ulyssesSeqToHead x seqDim headDim := by
  by_cases hn : n ≤ 1
  · rw [asyncUlyssesSeqToHeadLaunch, if_pos hn, ulyssesSeqToHead, ulyssesAllToAll, if_pos hn]
    exact everyRank_eq_some_iff.2 fun r => rfl
  · have r : Fin n := ⟨0, by omega⟩
    rw [asyncUlyssesSeqToHeadLaunch, if_neg hn, ulyssesSeqToHead, ulyssesAllToAll, if_neg hn]
    simp only [hshape]
    cases hs : normalizeDim seqDim shape.length with
    | none =>
      rw [everyRank_eq_none r rfl, everyRank_eq_none r]
      · rfl
      · cases normalizeDim headDim shape.length <;> rfl
    | some sd =>
      have hseqs : everyRank (fun _ : Fin n => some sd) = some fun _ => sd :=
        everyRank_eq_some_iff.2 fun _ => rfl
      have hsend : ∀ r, (do
          let head ← normalizeDim headDim shape.length
          if sd = head then none else prepareUlyssesSend (x r) head n) = (do
          let scatter ← normalizeDim headDim shape.length
          let gather ← some sd
          if scatter = gather then none else prepareSend (x r) scatter n) := by
        intro r
        cases hh : normalizeDim headDim shape.length with
        | none => rfl
        | some hd =>
          have hagain : normalizeDim hd shape.length = some hd :=
            normalizeDim_of_lt (lt_of_normalizeDim hh)
          simp [prepareUlyssesSend, hshape, hagain, eq_comm]
      have hwait : ∀ (output : Fin n → Tensor α) r,
          (AsyncCPCollective.wait ⟨x r, true, output r, .ulysses, sd, false⟩).map Prod.fst =
            reconstructAllToAll (output r) sd := fun _ _ => wait_result rfl
      simp only [hseqs, Option.bind_eq_bind, Option.bind_some] at hsend ⊢
      simp only [hsend, waitAll, Option.bind_assoc, Option.pure_def, Option.bind_some, hwait]

theorem moveDimToFront_spec {t : Tensor α} {d : ℕ} (hd : d < t.shape.length) :
    (moveDimToFront t d).shape = t.shape.getD d 0 :: (t.shape.take d ++ t.shape.drop (d + 1)) ∧
      ∀ idx, Valid t.shape idx → (moveDimToFront t d).entry
        (idx.getD d 0 :: (idx.take d ++ idx.drop (d + 1))) = t.entry idx := by
  have hparts : t.shape = t.shape.take d ++ t.shape.getD d 0 :: t.shape.drop (d + 1) := by
    rw [List.getD_eq_getElem _ _ hd, ← List.drop_eq_getElem_cons hd, List.take_append_drop]
  have hbefore : (t.shape.take d).length = d := List.length_take_of_le hd.le
  have hlength : d + ((t.shape.drop (d + 1)).length + 1) = t.shape.length := by
    rw [List.length_drop]
    omega
  obtain ⟨hshape, hentry⟩ := Tensor.permute_front hparts
  rw [hbefore, hlength] at hshape hentry
  rw [moveDimToFront]
  split_ifs with h0
  · subst h0
    refine ⟨by simpa using hparts, ?_⟩
    intro idx hidx
    obtain ⟨hsplit, -⟩ := hidx.split hd
    exact congrArg t.entry hsplit.symm
  · refine ⟨hshape, ?_⟩
    intro idx hidx
    obtain ⟨hsplit, hxs, ha, hys⟩ := hidx.split hd
    rw [hentry _ _ _ hxs hys ha, ← hsplit]

theorem moveDimFromFront_spec {t : Tensor α} {shape : List ℕ} {d : ℕ} (hd : d < shape.length)
    (hshape : t.shape = shape.getD d 0 :: (shape.take d ++ shape.drop (d + 1))) :
    (moveDimFromFront t d).shape = shape ∧ ∀ idx, Valid shape idx →
      (moveDimFromFront t d).entry idx =
        t.entry (idx.getD d 0 :: (idx.take d ++ idx.drop (d + 1))) := by
  have hparts : shape = shape.take d ++ shape.getD d 0 :: shape.drop (d + 1) := by
    rw [List.getD_eq_getElem _ _ hd, ← List.drop_eq_getElem_cons hd, List.take_append_drop]
  have hbefore : (shape.take d).length = d := List.length_take_of_le hd.le
  have hlength : d + ((shape.drop (d + 1)).length + 1) = t.shape.length := by
    rw [hshape, List.length_cons, List.length_append, hbefore]
    omega
  obtain ⟨hbackShape, hentry⟩ := Tensor.permute_back hshape
  rw [hbefore, hlength] at hbackShape hentry
  rw [moveDimFromFront]
  split_ifs with h0
  · subst h0
    refine ⟨by rw [hshape]; simpa using hparts.symm, ?_⟩
    intro idx hidx
    obtain ⟨hsplit, -⟩ := hidx.split hd
    exact congrArg t.entry hsplit
  · refine ⟨by rw [hbackShape, ← hparts], ?_⟩
    intro idx hidx
    obtain ⟨hsplit, hxs, ha, hys⟩ := hidx.split hd
    rw [← hentry _ _ _ hxs hys ha, ← hsplit]

/-- Launched and waited for, the all-gather is the synchronous one. -/
theorem waitAll_allgather {x : Fin n → Tensor α} {shape : List ℕ}
    (hshape : ∀ r, (x r).shape = shape) (gatherDim : ℤ) :
    waitAll (asyncCpAllgatherLaunch x gatherDim) = flexCpAllgather x gatherDim := by
  by_cases hn : n ≤ 1
  · rw [asyncCpAllgatherLaunch, if_pos hn, flexCpAllgather, if_pos hn]
    exact everyRank_eq_some_iff.2 fun r => rfl
  · have r : Fin n := ⟨0, by omega⟩
    cases hd : normalizeDim gatherDim shape.length with
    | none =>
      rw [asyncCpAllgatherLaunch, if_neg hn, flexCpAllgather, if_neg hn]
      have hdims : everyRank (fun _ : Fin n => (none : Option ℕ)) = none :=
        everyRank_eq_none r rfl
      simp only [hshape, hd, hdims]
      rfl
    | some d =>
      have hlt := lt_of_normalizeDim hd
      have hdims : everyRank (fun _ : Fin n => some d) = some fun _ => d :=
        everyRank_eq_some_iff.2 fun _ => rfl
      have hwait : ∀ (output : Tensor α) r,
          (AsyncCPCollective.wait ⟨x r, true, output, .allgather, d, false⟩).map Prod.fst =
            some (moveDimFromFront output d) := fun _ _ => wait_result rfl
      have hmoved : ∀ r, (moveDimToFront (x r) d).shape =
          shape.getD d 0 :: (shape.take d ++ shape.drop (d + 1)) := by
        intro r
        have hspec := moveDimToFront_spec (t := x r) (d := d) (by rwa [hshape])
        rw [hshape] at hspec
        exact hspec.1
      rw [flexCpAllgather_eq (by omega) hshape hd, asyncCpAllgatherLaunch, if_neg hn]
      simp only [hshape, hd, hdims, Option.bind_eq_bind, Option.bind_some, waitAll,
        cat_eq hmoved, Option.pure_def]
      apply everyRank_eq_some_iff.2
      intro r
      rw [hwait]
      congr 1
      have hgathered : (n * shape.getD d 0) :: (shape.take d ++ shape.drop (d + 1)) =
          (shape.set d (n * shape.getD d 0)).getD d 0 ::
            ((shape.set d (n * shape.getD d 0)).take d ++
              (shape.set d (n * shape.getD d 0)).drop (d + 1)) := by
        rw [getD_set_self hlt, List.take_set_of_le (Nat.le_refl d),
          List.drop_set_of_lt (Nat.lt_succ_self d)]
      obtain ⟨hback, hentry⟩ := moveDimFromFront_spec (t := Tensor.ofEntries
        ((n * shape.getD d 0) :: (shape.take d ++ shape.drop (d + 1))) fun idx =>
          entryAt (fun r => moveDimToFront (x r) d) (idx.getD 0 0 / shape.getD d 0)
            (idx.set 0 (idx.getD 0 0 % shape.getD d 0)))
        (by simpa using hlt) hgathered
      apply Tensor.eq_ofEntries
      · exact hback
      · intro idx hidx
        refine (hentry idx hidx).trans ?_
        obtain ⟨-, hxs, ha, hys⟩ := hidx.split_set hlt
        obtain ⟨hdiv, hmod⟩ := div_mod_lt ha
        have hrow := hidx.set_index hlt hmod
        obtain ⟨-, hspec⟩ := moveDimToFront_spec (t := x ⟨_, hdiv⟩) (d := d) (by rwa [hshape])
        have hidxd : d < idx.length := by
          have := hidx.length_eq
          simp only [List.length_set] at this
          omega
        have hentryRow := hspec (idx.set d (idx.getD d 0 % shape.getD d 0))
          (by rw [hshape]; exact hrow)
        rw [getD_set_self hidxd, List.take_set_of_le (Nat.le_refl d),
          List.drop_set_of_lt (Nat.lt_succ_self d)] at hentryRow
        rw [Tensor.entry_ofEntries _ (List.forall₂_cons.2 ⟨ha, hxs.append hys⟩),
          List.getD_cons_zero, List.set_cons_zero, entryAt_of_lt _ hdiv, hentryRow,
          entryAt_of_lt _ hdiv]

end HyperParallel.ContextParallel

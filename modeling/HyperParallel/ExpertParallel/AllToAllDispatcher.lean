import HyperParallel.Lib.Exchange

/-!
# Token dispatch over one group

`AllToAllTokenDispatcher` of `core/expert_parallel/expert_parallel.py`. A row stands for a token
with its feature dimensions.

* `generatePermuteIndices`, `permute`, `unpermute`: the reordering after an exchange;
* `dispatch`, `combine`, `combineStart`, `combineWait`: what all ranks of the group do together;
* `permute_eq`, `unpermute_eq`: a received buffer in expert-major order and back;
* `dispatch_eq`, `combine_eq`: what the exchanges move, block by block.
-/

namespace HyperParallel.ExpertParallel

open Blocks Exchange

variable {α β π : Type} {n L : ℕ}

/-! ### Reordering -/

/-- `counts.view(rows, columns).sum(dim=1).tolist()` -/
def rowSums (R C : ℕ) (counts : List ℕ) : Option (List ℕ) :=
  (view R C counts).map fun counts2d => List.ofFn fun r => ∑ c, counts2d r c

/-- `_generate_permute_indices` -/
def generatePermuteIndices (tokensPerExpertGroup : List ℕ) (expertsPerRank numRanks : ℕ) :
    Option (List ℕ × List ℕ) := do
  let counts2d ← view numRanks expertsPerRank tokensPerExpertGroup
  let numTokensPerExpert := List.ofFn fun e => ∑ r, counts2d r e
  if numTokensPerExpert.sum = 0 then
    return ([], numTokensPerExpert)
  let srcOffsetsRm ← view numRanks expertsPerRank (exclusive tokensPerExpertGroup)
  let srcOffsetsEm := flat fun e r => srcOffsetsRm r e
  let countsEm := flat fun e r => counts2d r e
  return (expand srcOffsetsEm countsEm, numTokensPerExpert)

/-- What `_permute` returns; the shape is the number of rows. -/
structure Permuted (α : Type) where
  originalShape : ℕ
  permutedX : List α
  permutedIndices : List ℕ
  numTokensPerExpert : List ℕ
  deriving DecidableEq

/-- `_permute` -/
def permute (x : List α) (tokensPerExpertGroup : List ℕ) (epDegree numLocalExperts : ℕ) :
    Option (Permuted α) := do
  let (permutedIndices, numTokensPerExpert) ←
    generatePermuteIndices tokensPerExpertGroup numLocalExperts epDegree
  let permutedX ← gather x permutedIndices
  return ⟨x.length, permutedX, permutedIndices, numTokensPerExpert⟩

/-- `_unpermute` -/
def unpermute [Zero α] (out : List α) (originalShape : ℕ) (permutedIndices : List ℕ) :
    Option (List α) :=
  scatter originalShape permutedIndices out

/-! ### The dispatcher -/

/-- `DispatchContext` -/
structure DispatchContext where
  inputSplits : List ℕ
  outputSplits : List ℕ
  inputShape : ℕ
  permutedIndices : List ℕ
  probsInputShape : Option ℕ
  deriving DecidableEq

/-- What `dispatch` returns on a rank. -/
structure Dispatched (α π : Type) where
  permuted : List α
  localCounts : List ℕ
  permutedProbs : Option (List π)
  ctx : DispatchContext
  deriving DecidableEq

/-- `_exchange_and_reorder_probs`: nothing happens without probs. -/
def exchangeAndReorderProbs (permutedProbs : Option (Fin n → List π))
    (inputSplits outputSplits countsOut : Fin n → List ℕ) (numLocalExperts : Fin n → ℕ) :
    Option (Fin n → Option (Permuted π)) :=
  match permutedProbs with
  | none => some fun _ => none
  | some probs => do
    let dispatchedProbs ← allToAllSingle probs inputSplits outputSplits
    let reordered ← everyRank fun r =>
      permute (dispatchedProbs r) (countsOut r) n (numLocalExperts r)
    return fun r => some (reordered r)

/-- `AllToAllTokenDispatcher.dispatch` on all ranks of the group. -/
def dispatch (routedInput : Fin n → List α) (numTokensPerExpert : Fin n → List ℕ)
    (permutedProbs : Option (Fin n → List π)) : Option (Fin n → Dispatched α π) := do
  let numLocalExperts := fun r => (numTokensPerExpert r).length / n
  let countsOut ← exchangeSplits numTokensPerExpert
  let inputSplits ← everyRank fun r => rowSums n (numLocalExperts r) (numTokensPerExpert r)
  let outputSplits ← everyRank fun r => rowSums n (numLocalExperts r) (countsOut r)
  let dispatched ← allToAllSingle routedInput inputSplits outputSplits
  let tokens ← everyRank fun r => permute (dispatched r) (countsOut r) n (numLocalExperts r)
  let probs ← exchangeAndReorderProbs permutedProbs inputSplits outputSplits countsOut
    numLocalExperts
  return fun r =>
    { permuted := (tokens r).permutedX
      localCounts := (tokens r).numTokensPerExpert
      permutedProbs := (probs r).map (·.permutedX)
      ctx :=
        { inputSplits := inputSplits r
          outputSplits := outputSplits r
          inputShape := (tokens r).originalShape
          permutedIndices := (tokens r).permutedIndices
          probsInputShape := (probs r).map (·.originalShape) } }

/-- `AllToAllTokenDispatcher.combine` on all ranks of the group. -/
def combine [Zero α] (routedOutput : Fin n → List α) (ctx : Fin n → DispatchContext) :
    Option (Fin n → List α) := do
  let unpermuted ← everyRank fun r =>
    unpermute (routedOutput r) (ctx r).inputShape (ctx r).permutedIndices
  allToAllSingle unpermuted (fun r => (ctx r).outputSplits) fun r => (ctx r).inputSplits

/-! ### Waiting for it -/

/-- A tensor that a collective in flight fills. -/
structure AsyncTensor (β : Type) where
  value : β
  materialised : Bool
  deriving DecidableEq

/-- `wait_async_tensor` -/
def waitAsyncTensor (t : AsyncTensor β) : AsyncTensor β := { t with materialised := true }

/-- `AsyncHandle` -/
structure AsyncHandle (β : Type) where
  tensor : AsyncTensor β
  waited : Bool
  deriving DecidableEq

/-- `AsyncHandle.wait`: the result, and the handle afterwards. -/
def AsyncHandle.wait (handle : AsyncHandle β) : AsyncTensor β × AsyncHandle β :=
  if handle.waited then (handle.tensor, handle)
  else (waitAsyncTensor handle.tensor, ⟨waitAsyncTensor handle.tensor, true⟩)

/-- `AllToAllTokenDispatcher.combine_start` on all ranks of the group. -/
def combineStart [Zero α] (routedOutput : Fin n → List α) (ctx : Fin n → DispatchContext) :
    Option (Fin n → AsyncHandle (List α)) := do
  let unpermuted ← everyRank fun r =>
    unpermute (routedOutput r) (ctx r).inputShape (ctx r).permutedIndices
  let combinedAsync ←
    allToAllSingle unpermuted (fun r => (ctx r).outputSplits) fun r => (ctx r).inputSplits
  return fun r => ⟨⟨combinedAsync r, false⟩, false⟩

/-- `AllToAllTokenDispatcher.combine_wait` -/
def combineWait (handle : AsyncHandle β) : AsyncTensor β × AsyncHandle β := handle.wait

/-- Waiting returns the materialised tensor, however often. -/
theorem combineWait_twice (v : β) :
    (combineWait (⟨⟨v, false⟩, false⟩ : AsyncHandle β)).1 = ⟨v, true⟩ ∧
      (combineWait (combineWait (⟨⟨v, false⟩, false⟩ : AsyncHandle β)).2).1 = ⟨v, true⟩ :=
  ⟨rfl, rfl⟩

/-! ### Expert-major order -/

theorem rowSums_flat {R C : ℕ} (counts : Fin R → Fin C → ℕ) :
    rowSums R C (flat counts) = some (List.ofFn fun r => ∑ c, counts r c) := by
  rw [rowSums, view_flat, Option.map_some]

theorem generatePermuteIndices_eq (counts : Fin n → Fin L → ℕ) :
    generatePermuteIndices (flat counts) L n =
      some (transposed counts, List.ofFn fun e => ∑ r, counts r e) := by
  simp only [generatePermuteIndices, view_flat, exclusive_flat, Option.bind_eq_bind,
    Option.bind_some, expand_flat]
  split_ifs with h
  · -- nothing arrives, so no block has a row
    have hzero : ∀ r e, counts r e = 0 := by
      intro r e
      rw [List.sum_ofFn, Finset.sum_eq_zero_iff] at h
      exact Finset.sum_eq_zero_iff.1 (h e (Finset.mem_univ e)) r (Finset.mem_univ r)
    have hnil : transposed counts = [] := by
      rw [transposed, List.flatten_eq_nil_iff]
      intro block hblock
      obtain ⟨e, r, rfl⟩ := mem_flat.1 hblock
      rw [hzero, List.range'_zero]
    rw [hnil]
    rfl
  · rfl

variable {B : Fin n → Fin L → List α} {counts : Fin n → Fin L → ℕ}

theorem permute_eq (h : ∀ r e, (B r e).length = counts r e) :
    permute (flat B).flatten (flat counts) n L =
      some ⟨(flat counts).sum, (flat fun e r => B r e).flatten, transposed counts,
        List.ofFn fun e => ∑ r, counts r e⟩ := by
  simp only [permute, generatePermuteIndices_eq, Option.bind_eq_bind, Option.bind_some,
    gather_transposed h, length_flatten_flat h]
  rfl

theorem unpermute_eq [Zero α] (h : ∀ r e, (B r e).length = counts r e) :
    unpermute (flat fun e r => B r e).flatten (flat counts).sum (transposed counts) =
      some (flat B).flatten :=
  scatter_transposed h

/-! ### The blocks of all ranks -/

section Blocks

variable {B : Fin n → Fin n → Fin L → List α} {counts : Fin n → Fin n → Fin L → ℕ}

/-- The rows of source `s` for expert `e` of destination `d`, from the sources to the destinations. -/
theorem exchange_rows (h : ∀ s d e, (B s d e).length = counts s d e) :
    allToAllSingle (fun s => (flat (B s)).flatten) (fun s => List.ofFn fun d => ∑ e, counts s d e)
        (fun d => List.ofFn fun s => ∑ e, counts s d e) =
      some fun d => (flat fun s e => B s d e).flatten := by
  have hsizes : ∀ s d, (concat (B s d)).length = ∑ e, counts s d e := by
    intro s d
    rw [length_concat]
    simp only [h]
  simp only [flatten_flat]
  exact allToAllSingle_blocks hsizes

/-- The other way round. -/
theorem return_rows (h : ∀ s d e, (B s d e).length = counts s d e) :
    allToAllSingle (fun d => (flat fun s e => B s d e).flatten)
        (fun d => List.ofFn fun s => ∑ e, counts s d e)
        (fun s => List.ofFn fun d => ∑ e, counts s d e) =
      some fun s => (flat (B s)).flatten :=
  exchange_rows (B := fun d s e => B s d e) fun d s e => h s d e

theorem exchangeAndReorderProbs_eq {P : Option (Fin n → Fin n → Fin L → List π)}
    (h : ∀ p, P = some p → ∀ s d e, (p s d e).length = counts s d e) :
    exchangeAndReorderProbs (P.map fun p s => (flat (p s)).flatten)
        (fun s => List.ofFn fun d => ∑ e, counts s d e)
        (fun d => List.ofFn fun s => ∑ e, counts s d e)
        (fun d => flat fun s e => counts s d e) (fun _ => L) =
      some fun d => P.map fun p => ⟨(flat fun s e => counts s d e).sum,
        (flat fun e s => p s d e).flatten, transposed fun s e => counts s d e,
        List.ofFn fun e => ∑ s, counts s d e⟩ := by
  cases P with
  | none => rfl
  | some p =>
    have hp := h p rfl
    have hpermute : (everyRank fun d =>
        permute (flat fun s e => p s d e).flatten (flat fun s e => counts s d e) n L) = some _ :=
      everyRank_eq_some_iff.2 fun d => permute_eq fun s e => hp s d e
    simp only [exchangeAndReorderProbs, Option.map_some, exchange_rows hp, hpermute,
      Option.bind_eq_bind, Option.bind_some]
    rfl

/-- What `dispatch` returns on every rank. -/
theorem dispatch_eq (h : ∀ s d e, (B s d e).length = counts s d e)
    {P : Option (Fin n → Fin n → Fin L → List π)}
    (hP : ∀ p, P = some p → ∀ s d e, (p s d e).length = counts s d e) :
    dispatch (fun s => (flat (B s)).flatten) (fun s => flat (counts s))
        (P.map fun p s => (flat (p s)).flatten) =
      some fun d =>
        { permuted := (flat fun e s => B s d e).flatten
          localCounts := List.ofFn fun e => ∑ s, counts s d e
          permutedProbs := P.map fun p => (flat fun e s => p s d e).flatten
          ctx :=
            { inputSplits := List.ofFn fun d' => ∑ e, counts d d' e
              outputSplits := List.ofFn fun s => ∑ e, counts s d e
              inputShape := (flat fun s e => counts s d e).sum
              permutedIndices := transposed fun s e => counts s d e
              probsInputShape := P.map fun _ => (flat fun s e => counts s d e).sum } } := by
  have hlocal : ∀ r : Fin n, (flat (counts r)).length / n = L := by
    intro r
    rw [length_flat, Nat.mul_div_cancel_left _ r.pos]
  have hinput : (everyRank fun s => rowSums n L (flat (counts s))) = some _ :=
    everyRank_eq_some_iff.2 fun s => rowSums_flat (counts s)
  have houtput : (everyRank fun d => rowSums n L (flat fun s e => counts s d e)) = some _ :=
    everyRank_eq_some_iff.2 fun d => rowSums_flat fun s e => counts s d e
  have hpermute : (everyRank fun d =>
      permute (flat fun s e => B s d e).flatten (flat fun s e => counts s d e) n L) = some _ :=
    everyRank_eq_some_iff.2 fun d => permute_eq fun s e => h s d e
  simp only [dispatch, hlocal, exchangeSplits_flat, hinput, houtput, exchange_rows h, hpermute,
    exchangeAndReorderProbs_eq hP, Option.bind_eq_bind, Option.bind_some, Option.map_map]
  rfl

/-- What `combine` returns on every rank, for rows that stand as `dispatch` left them. -/
theorem combine_eq [Zero α] (h : ∀ s d e, (B s d e).length = counts s d e)
    {ctx : Fin n → DispatchContext}
    (hinput : ∀ s, (ctx s).inputSplits = List.ofFn fun d => ∑ e, counts s d e)
    (houtput : ∀ d, (ctx d).outputSplits = List.ofFn fun s => ∑ e, counts s d e)
    (hshape : ∀ d, (ctx d).inputShape = (flat fun s e => counts s d e).sum)
    (hindices : ∀ d, (ctx d).permutedIndices = transposed fun s e => counts s d e) :
    combine (fun d => (flat fun e s => B s d e).flatten) ctx =
      some fun s => (flat (B s)).flatten := by
  have hunpermute : (everyRank fun d => unpermute (flat fun e s => B s d e).flatten
      (flat fun s e => counts s d e).sum (transposed fun s e => counts s d e)) = some _ :=
    everyRank_eq_some_iff.2 fun d => unpermute_eq fun s e => h s d e
  simp only [combine, hinput, houtput, hshape, hindices, hunpermute, Option.bind_eq_bind,
    Option.bind_some, return_rows h]

/-- `combine_start` launches what `combine` returns. -/
theorem combineStart_eq [Zero α] (routedOutput : Fin n → List α) (ctx : Fin n → DispatchContext) :
    combineStart routedOutput ctx =
      (combine routedOutput ctx).map fun combined r => ⟨⟨combined r, false⟩, false⟩ := by
  simp only [combineStart, combine, Option.map_bind, Option.bind_eq_bind]
  congr 1
  funext unpermuted
  exact Option.map_eq_bind.symm

end Blocks

end HyperParallel.ExpertParallel

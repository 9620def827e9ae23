import HyperParallel.ExpertParallel.Deredundency
import Mathlib.Algebra.Module.BigOperators
import Mathlib.Tactic.Ring

/-!
# What the two-stage exchange moves

* `generateDispatchIndices_eq`: the blocks of an outer expert range in the shared view;
* `outgoing`, `arriving`: the tokens that a rank sends into its iep group and receives from it;
* `Deredundency.dispatch_delivers`: what every rank has after `dispatch`;
* `Deredundency.Delivered.combine_eq`: what `combine` returns from it.
-/

namespace HyperParallel.ExpertParallel

open Blocks Exchange

variable {α κ : Type} {n I L : ℕ}

/-! ### Dispatch indices -/

theorem flat3_eq {A B C : ℕ} (m : Fin (A * B) → Fin C → α) :
    flat3 (fun a b c => m ⟨a.val * B + b.val, index_lt a b⟩ c) = flat m := by
  rw [flat, concat_fin_mul]
  rfl

theorem expandDispatchBlocks_eq (blockCounts blockStarts : List ℕ) :
    expandDispatchBlocks blockCounts blockStarts = expand blockStarts blockCounts := by
  rw [expandDispatchBlocks]
  split_ifs with h
  · rw [expand, h]
    simp
  · rfl

/-- The experts of an outer range, by inner rank and local expert. -/
theorem expert_lt (o : Fin n) (k : Fin I) (e : Fin L) :
    (o.val * I + k.val) * L + e.val < n * I * L :=
  index_lt (⟨o.val * I + k.val, index_lt o k⟩ : Fin (n * I)) e

def expertOf (o : Fin n) (k : Fin I) (e : Fin L) : Fin (n * I * L) :=
  ⟨(o.val * I + k.val) * L + e.val, expert_lt o k e⟩

/-- All experts, by outer rank, inner rank and local expert. -/
theorem concat_experts (f : Fin (n * I * L) → List α) :
    concat f = concat fun o => concat fun k => concat fun e => f (expertOf o k e) := by
  rw [concat_fin_mul, concat_fin_mul]
  rfl

theorem selected_ofFn (f : Fin (n * I * L) → ℕ) (o : Fin n) :
    selected (List.ofFn f) (o.val * (I * L)) I L = some fun k e => f (expertOf o k e) := by
  have hend : o.val * (I * L) + I * L ≤ n * I * L := by
    rw [← Nat.succ_mul, Nat.mul_assoc]
    exact Nat.mul_le_mul_right _ o.isLt
  have hlength : (((List.ofFn f).drop (o.val * (I * L))).take (I * L)).length = I * L := by
    rw [List.length_take, List.length_drop, List.length_ofFn]
    omega
  rw [selected, view, dif_pos hlength]
  congr 1
  funext k e
  rw [List.get_eq_getElem, List.getElem_take, List.getElem_drop, List.getElem_ofFn]
  congr 1
  apply Fin.ext
  change o.val * (I * L) + (k.val * L + e.val) = (o.val * I + k.val) * L + e.val
  ring

theorem expertOffsets_eq {E : ℕ} (counts : Fin n → Fin E → ℕ) (p : Fin n) :
    expertOffsets (fun s => List.ofFn (counts s)) p = List.ofFn (starts counts p) := by
  have hflat : (concat fun r => expertOffsets (fun s => List.ofFn (counts s)) r) =
      flat (starts counts) := by
    rw [← exclusive_flat, exclusive_eq, flat, startsFrom_concat, ← exclusive_eq]
    rfl
  have hlength : ∀ r, (expertOffsets (fun s => List.ofFn (counts s)) r).length = E := by
    intro r
    simp [expertOffsets]
  have hrow : ∀ r, ∃ m : Fin E → ℕ,
      expertOffsets (fun s => List.ofFn (counts s)) r = List.ofFn m := by
    intro r
    refine ⟨fun c => (expertOffsets (fun s => List.ofFn (counts s)) r).get (c.cast (hlength r).symm),
      ?_⟩
    exact (List.ofFn_get _).symm.trans (List.ofFn_congr (hlength r) _)
  choose m hm using hrow
  have hm' : flat m = flat (starts counts) := by
    rw [← hflat]
    simp only [hm]
    rfl
  have hview := view_flat m
  rw [hm', view_flat] at hview
  rw [hm, ← Option.some.inj hview]

/-- The positions of an outer expert range in the shared view. -/
def rangeIndices (counts : Fin n → Fin (n * I * L) → ℕ) (o : Fin n) : List ℕ :=
  concat fun k : Fin I => concat fun e : Fin L => concat fun p =>
    List.range' (starts counts p (expertOf o k e)) (counts p (expertOf o k e))

theorem generateDispatchIndices_eq (counts : Fin n → Fin (n * I * L) → ℕ) (o : Fin n) :
    generateDispatchIndices (fun s => List.ofFn (counts s)) (o.val * (I * L)) I L =
      some (rangeIndices counts o, flat fun k e => ∑ p, counts p (expertOf o k e)) := by
  have hcounts : (everyRank fun p => selected (List.ofFn (counts p)) (o.val * (I * L)) I L) =
      some fun p k e => counts p (expertOf o k e) :=
    everyRank_eq_some_iff.2 fun p => selected_ofFn (counts p) o
  have hoffsets : (everyRank fun p => selected (expertOffsets (fun s => List.ofFn (counts s)) p)
      (o.val * (I * L)) I L) = some fun p k e => starts counts p (expertOf o k e) := by
    apply everyRank_eq_some_iff.2
    intro p
    rw [expertOffsets_eq, selected_ofFn]
  simp only [generateDispatchIndices, hcounts, hoffsets, Option.bind_eq_bind, Option.bind_some,
    expandDispatchBlocks_eq]
  have hblocks : ∀ m : Fin n → Fin (n * I * L) → ℕ,
      (flat3 fun (k : Fin I) (e : Fin L) p => m p (expertOf o k e)) =
        flat fun j : Fin (I * L) => fun p =>
          m p (expertOf o j.divNat j.modNat) := by
    intro m
    rw [← flat3_eq]
    simp only [divNat_index, modNat_index]
  rw [hblocks, hblocks, expand_flat, flatten_flat, concat_fin_mul]
  simp only [divNat_index, modNat_index]
  rfl

/-! ### The tokens of the two stages -/

variable {info : MeshInfo}

section Tokens

variable (inputs : info.OnRanks (RoutedInput α κ (info.oepSize * info.iepSize * L)))

/-- The tokens of an oep group, in the order of the group. -/
def source (i : Fin info.iepSize) (p : Fin info.oepSize) :
    RoutedInput α κ (info.oepSize * info.iepSize * L) :=
  inputs (info.oepOrder i p) i

/-- Their counts. -/
def sourceCounts (i : Fin info.iepSize) (p : Fin info.oepSize)
    (j : Fin (info.oepSize * info.iepSize * L)) : ℕ :=
  ((source inputs i p).ofExpert j).length

/-- What a rank sends to position `k` of its iep group for local expert `e` there. -/
def outgoing (o : Fin info.oepSize) (i k : Fin info.iepSize) (e : Fin L) :
    List (RoutedToken α κ) :=
  concat fun p => (source inputs i p).ofExpert (expertOf o k e)

/-- What a rank receives for its local expert `e`, by the sender in its iep group. -/
def arriving (o : Fin info.oepSize) (i : Fin info.iepSize) (e : Fin L) : List (RoutedToken α κ) :=
  concat fun q => outgoing inputs o (info.iepOrder o q) ((info.iepOrder o).symm i) e

theorem numTokensPerExpert_source (i : Fin info.iepSize) (p : Fin info.oepSize) :
    (source inputs i p).numTokensPerExpert = List.ofFn (sourceCounts inputs i p) := rfl

/-- The rows of an oep group are the blocks of its counts. -/
theorem concat_source {β : Type} (f : RoutedToken α κ → β) (i : Fin info.iepSize) :
    (concat fun p => (source inputs i p).tokens.map f) =
      (flat fun p (j : Fin (info.oepSize * info.iepSize * L)) =>
        ((source inputs i p).ofExpert j).map f).flatten := by
  rw [flatten_flat]
  congr 1
  funext p
  have htokens := (source inputs i p).tokens_eq
  rw [flatten_flat, ← concat_fin_mul (fun j => (source inputs i p).ofExpert j)] at htokens
  rw [htokens, map_concat]

/-- What a rank reads for its outer expert range. -/
theorem gather_rangeIndices {β : Type} (f : RoutedToken α κ → β) (o : Fin info.oepSize)
    (i : Fin info.iepSize) :
    gather (concat fun p => (source inputs i p).tokens.map f)
        (rangeIndices (sourceCounts inputs i) o) =
      some (concat fun k => concat fun e => (outgoing inputs o i k e).map f) := by
  rw [concat_source]
  apply gather_concat
  intro k
  apply gather_concat
  intro e
  rw [outgoing, map_concat]
  apply gather_concat
  intro p
  exact gather_block (fun _ _ => List.length_map _) p (expertOf o k e)

/-- A token that arrives is routed to the expert it arrives for. -/
theorem expert_of_mem_arriving {o : Fin info.oepSize} {i : Fin info.iepSize} {e : Fin L}
    {t : RoutedToken α κ} (h : t ∈ arriving inputs o i e) :
    t.expert = (o.val * info.iepSize + ((info.iepOrder o).symm i).val) * L + e.val := by
  obtain ⟨q, hq⟩ := mem_concat.1 h
  obtain ⟨p, hp⟩ := mem_concat.1 hq
  exact (source inputs _ p).expert_of_mem_ofExpert hp

/-- Every token of an expert arrives once. -/
theorem arriving_perm (o : Fin info.oepSize) (i : Fin info.iepSize) (e : Fin L) :
    (arriving inputs o i e).Perm (concat fun i' => concat fun o' =>
      (inputs o' i').ofExpert (expertOf o ((info.iepOrder o).symm i) e)) := by
  classical
  rw [List.perm_iff_count]
  intro t
  simp only [arriving, outgoing, source, count_concat]
  rw [Equiv.sum_comp (info.iepOrder o) fun i' => ∑ p, ((inputs (info.oepOrder i' p) i').ofExpert
    (expertOf o ((info.iepOrder o).symm i) e)).count t]
  refine Finset.sum_congr rfl fun i' _ => ?_
  exact Equiv.sum_comp (info.oepOrder i') fun o' => ((inputs o' i').ofExpert
    (expertOf o ((info.iepOrder o).symm i) e)).count t

end Tokens

/-! ### Dispatch -/

theorem everyMeshRank_eq_some_iff {β : Type} {f : Fin info.oepSize → Fin info.iepSize → Option β}
    {g : info.OnRanks β} : everyMeshRank info f = some g ↔ ∀ o i, f o i = some (g o i) := by
  simp only [everyMeshRank, everyRank_eq_some_iff]

/-- Rows over the iep groups: from rank `s` to position `k` goes `B o s k`. -/
theorem iepAllToAllSingle_blocks {B : Fin info.oepSize → Fin info.iepSize → Fin info.iepSize →
      Fin L → List α}
    {counts : Fin info.oepSize → Fin info.iepSize → Fin info.iepSize → Fin L → ℕ}
    (h : ∀ o s k e, (B o s k e).length = counts o s k e) :
    iepAllToAllSingle info (fun o s => (flat (B o s)).flatten)
        (fun o s => List.ofFn fun k => ∑ e, counts o s k e)
        (fun o i => List.ofFn fun q => ∑ e, counts o (info.iepOrder o q)
          ((info.iepOrder o).symm i) e) =
      some fun o i => (flat fun q e =>
        B o (info.iepOrder o q) ((info.iepOrder o).symm i) e).flatten := by
  apply everyRank_eq_some_iff.2
  intro o
  have hexchange := exchange_rows (B := fun q k e => B o (info.iepOrder o q) k e)
    fun q k e => h o (info.iepOrder o q) k e
  simp only [Function.comp_def, Equiv.symm_apply_apply]
  rw [hexchange]
  rfl

/-- And back. -/
theorem iepAllToAllSingle_return {B : Fin info.oepSize → Fin info.iepSize → Fin info.iepSize →
      Fin L → List α}
    {counts : Fin info.oepSize → Fin info.iepSize → Fin info.iepSize → Fin L → ℕ}
    (h : ∀ o s k e, (B o s k e).length = counts o s k e) :
    iepAllToAllSingle info
        (fun o i => (flat fun q e =>
          B o (info.iepOrder o q) ((info.iepOrder o).symm i) e).flatten)
        (fun o i => List.ofFn fun q => ∑ e, counts o (info.iepOrder o q)
          ((info.iepOrder o).symm i) e)
        (fun o s => List.ofFn fun k => ∑ e, counts o s k e) =
      some fun o s => (flat (B o s)).flatten := by
  apply everyRank_eq_some_iff.2
  intro o
  have hreturn := return_rows (B := fun q k e => B o (info.iepOrder o q) k e)
    fun q k e => h o (info.iepOrder o q) k e
  simp only [Function.comp_def, Equiv.symm_apply_apply]
  rw [hreturn, Option.map_some]
  simp only [Equiv.apply_symm_apply]

theorem iepExchangeSplits_flat (m : Fin info.oepSize → Fin info.iepSize → Fin info.iepSize →
      Fin L → ℕ) :
    iepExchangeSplits info (fun o s => flat (m o s)) =
      some fun o i => flat fun q => m o (info.iepOrder o q) ((info.iepOrder o).symm i) := by
  apply everyRank_eq_some_iff.2
  intro o
  simp only [Function.comp_def]
  rw [exchangeSplits_flat fun q k => m o (info.iepOrder o q) k, Option.map_some]

/-- What every rank has after `dispatch`. -/
structure Deredundency.Delivered
    (inputs : info.OnRanks (RoutedInput α κ (info.oepSize * info.iepSize * L))) (useCoeff : Bool)
    (out : info.OnRanks (Deredundency.Result α κ)) : Prop where
  permuted : ∀ o i, (out o i).permuted = (concat (arriving inputs o i)).map (·.row)
  localCounts : ∀ o i, (out o i).localCounts = List.ofFn fun e => (arriving inputs o i e).length
  inputSplits : ∀ o i, (out o i).ctx.inputSplits =
    List.ofFn fun k => ∑ e, (outgoing inputs o i k e).length
  outputSplits : ∀ o i, (out o i).ctx.outputSplits = List.ofFn fun q => ∑ e,
    (outgoing inputs o (info.iepOrder o q) ((info.iepOrder o).symm i) e).length
  inputShape : ∀ o i, (out o i).ctx.inputShape = (flat fun q e =>
    (outgoing inputs o (info.iepOrder o q) ((info.iepOrder o).symm i) e).length).sum
  permutedIndices : ∀ o i, (out o i).ctx.permutedIndices = transposed fun q e =>
    (outgoing inputs o (info.iepOrder o q) ((info.iepOrder o).symm i) e).length
  dispatchIndices : ∀ o i,
    (out o i).ctx.dispatchIndices = rangeIndices (sourceCounts inputs i) o
  routerCoeff : ∀ o i, (out o i).ctx.routerCoeff =
    if useCoeff then
      some (concat fun k => concat fun e => (outgoing inputs o i k e).map (·.prob))
    else none
  gatheredShape : ∀ o i,
    (out o i).ctx.gatheredShape = (concat fun p => (source inputs i p).tokens).length
  oepSize : ∀ o i, (out o i).ctx.oepSize = info.oepSize

/-- With one outer rank there is one source. -/
theorem source_of_oepSize_eq_one
    (inputs : info.OnRanks (RoutedInput α κ (info.oepSize * info.iepSize * L)))
    (h : info.oepSize = 1) (o : Fin info.oepSize) (i : Fin info.iepSize) (p : Fin info.oepSize) :
    source inputs i p = inputs o i := by
  have hone : ∀ a b : Fin info.oepSize, a = b := fun a b => by
    apply Fin.ext
    have := a.isLt
    have := b.isLt
    omega
  rw [source, hone (info.oepOrder i p) o]

theorem concat_of_eq_one {β : Type} {f : Fin n → List β} (h : n = 1) (a : Fin n) :
    concat f = f a := by
  subst h
  rw [concat_succ, Subsingleton.elim a 0]
  exact List.append_nil _

theorem gatherRows_eq {β : Type}
    (inputs : info.OnRanks (RoutedInput α κ (info.oepSize * info.iepSize * L)))
    (f : RoutedToken α κ → β) (o : Fin info.oepSize) (i : Fin info.iepSize) :
    Deredundency.gatherRows info (fun o i => (inputs o i).tokens.map f) o i =
      concat fun p => (source inputs i p).tokens.map f := by
  rw [Deredundency.gatherRows]
  split_ifs with h
  · rw [concat_of_eq_one h o, source_of_oepSize_eq_one inputs h o]
  · rfl

theorem gatherCounts_eq
    (inputs : info.OnRanks (RoutedInput α κ (info.oepSize * info.iepSize * L)))
    (htotals : ∀ i o o', (inputs o i).tokens.length = (inputs o' i).tokens.length)
    (o : Fin info.oepSize) (i : Fin info.iepSize) :
    Deredundency.gatherCounts info (fun o i => (inputs o i).numTokensPerExpert)
        (fun o i => (inputs o i).routedInput) o i =
      some fun p => List.ofFn (sourceCounts inputs i p) := by
  rw [Deredundency.gatherCounts]
  split_ifs with h hsum
  · congr 1
    funext p
    rw [← numTokensPerExpert_source, source_of_oepSize_eq_one inputs h o]
  · rfl
  · -- the counts of a rank add up to its rows
    refine absurd ?_ hsum
    intro p
    have htokens := (source inputs i p).tokens_eq
    change (source inputs i p).numTokensPerExpert.sum = _
    rw [RoutedInput.routedInput, List.length_map, htotals i o (info.oepOrder i p)]
    change _ = (source inputs i p).tokens.length
    rw [RoutedInput.numTokensPerExpert_eq, htokens]
    exact (length_flatten_flat fun _ _ => rfl).symm

namespace Deredundency

variable (inputs : info.OnRanks (RoutedInput α κ (info.oepSize * info.iepSize * L)))

/-- The coefficients that are passed, if any are. -/
def coefficients (useCoeff : Bool) : Option (info.OnRanks (List κ)) :=
  if useCoeff then some fun o i => (inputs o i).permutedProbs else none

theorem localExperts_eq (o : Fin info.oepSize) (i : Fin info.iepSize) :
    (inputs o i).numTokensPerExpert.length / (info.oepSize * info.iepSize) = L := by
  rw [RoutedInput.numTokensPerExpert, List.length_ofFn]
  exact Nat.mul_div_cancel_left _ (Nat.mul_pos o.pos i.pos)

theorem inputs_valid (useCoeff : Bool) :
    (everyMeshRank info fun o i =>
      if coeffMatches ((coefficients inputs useCoeff).map (· o i))
          (inputs o i).routedInput.length ∧
        (inputs o i).numTokensPerExpert.length % (info.oepSize * info.iepSize) = 0 then some ()
      else none) = some fun _ _ => () := by
  apply everyMeshRank_eq_some_iff.2
  intro o i
  apply if_pos
  constructor
  · rw [coefficients]
    split_ifs
    · simp [coeffMatches, RoutedInput.permutedProbs, RoutedInput.routedInput]
    · rfl
  · rw [RoutedInput.numTokensPerExpert, List.length_ofFn, Nat.mul_mod_right]

theorem outerRouterCoeff_eq (useCoeff : Bool) :
    (everyMeshRank info fun o i =>
      gatherCoeff ((coefficients inputs useCoeff).map fun coeff => gatherRows info coeff o i)
        (rangeIndices (sourceCounts inputs i) o)) =
      some fun o i => if useCoeff then
        some (concat fun k => concat fun e => (outgoing inputs o i k e).map (·.prob))
      else none := by
  apply everyMeshRank_eq_some_iff.2
  intro o i
  rw [coefficients]
  split_ifs
  · simp only [Option.map_some, RoutedInput.permutedProbs, gatherRows_eq inputs, gatherCoeff,
      gather_rangeIndices]
  · rfl

/-- `dispatch` delivers every token to the rank at the position of its expert. -/
theorem dispatch_delivers
    (htotals : ∀ i o o', (inputs o i).tokens.length = (inputs o' i).tokens.length)
    (useCoeff : Bool) :
    ∃ out, dispatch info (fun o i => (inputs o i).routedInput)
        (fun o i => (inputs o i).numTokensPerExpert) (coefficients inputs useCoeff) = some out ∧
      Delivered inputs useCoeff out := by
  have hsize : ∀ o i k (e : Fin L), ∑ p, sourceCounts inputs i p (expertOf o k e) =
      (outgoing inputs o i k e).length := by
    intro o i k e
    rw [outgoing, length_concat]
    rfl
  have hcounts : everyMeshRank info (gatherCounts info
      (fun o i => (inputs o i).numTokensPerExpert) fun o i => (inputs o i).routedInput) = some _ :=
    everyMeshRank_eq_some_iff.2 (gatherCounts_eq inputs htotals)
  have hindices : (everyMeshRank info fun o i =>
      generateDispatchIndices (fun p => List.ofFn (sourceCounts inputs i p))
        (o.val * (info.iepSize * L)) info.iepSize L) = some _ :=
    everyMeshRank_eq_some_iff.2 fun o i => generateDispatchIndices_eq (sourceCounts inputs i) o
  have hinput : (everyMeshRank info fun o i =>
      rowSums info.iepSize L (flat fun k e => (outgoing inputs o i k e).length)) = some _ :=
    everyMeshRank_eq_some_iff.2 fun o i => rowSums_flat _
  have houtput : (everyMeshRank info fun o i => rowSums info.iepSize L (flat fun q e =>
      (outgoing inputs o (info.iepOrder o q) ((info.iepOrder o).symm i) e).length)) = some _ :=
    everyMeshRank_eq_some_iff.2 fun o i => rowSums_flat _
  have hrows : (everyMeshRank info fun o i =>
      gather (gatherRows info (fun o i => (inputs o i).routedInput) o i)
        (rangeIndices (sourceCounts inputs i) o)) =
      some fun o i => (flat fun k (e : Fin L) => (outgoing inputs o i k e).map (·.row)).flatten := by
    apply everyMeshRank_eq_some_iff.2
    intro o i
    simp only [RoutedInput.routedInput]
    rw [gatherRows_eq inputs, gather_rangeIndices, flatten_flat]
  have hpermute : (everyMeshRank info fun o i => permute
      (flat fun q (e : Fin L) => (outgoing inputs o (info.iepOrder o q)
        ((info.iepOrder o).symm i) e).map (·.row)).flatten
      (flat fun q e => (outgoing inputs o (info.iepOrder o q)
        ((info.iepOrder o).symm i) e).length) info.iepSize L) = some _ :=
    everyMeshRank_eq_some_iff.2 fun o i => permute_eq fun _ _ => List.length_map _
  have hexchange := iepAllToAllSingle_blocks
    (B := fun o i k (e : Fin L) => (outgoing inputs o i k e).map (·.row))
    fun o i k e => List.length_map _
  simp only [dispatch, localExperts_eq, inputs_valid, hcounts, hindices, hsize, hinput,
    iepExchangeSplits_flat, houtput, hrows, outerRouterCoeff_eq, hexchange, hpermute,
    Option.bind_eq_bind, Option.bind_some]
  refine ⟨_, rfl, ?_, ?_, fun _ _ => rfl, fun _ _ => rfl, fun _ _ => rfl, fun _ _ => rfl,
    fun _ _ => rfl, fun _ _ => rfl, ?_, fun _ _ => rfl⟩
  · intro o i
    change (flat fun (e : Fin L) q => _).flatten = _
    rw [flatten_flat, map_concat]
    congr 1
    funext e
    exact (map_concat _ _).symm
  · intro o i
    change (List.ofFn fun e : Fin L => ∑ q, _) = _
    congr 1
    funext e
    exact (length_concat _).symm
  · intro o i
    simp only [RoutedInput.routedInput]
    rw [gatherRows_eq inputs, ← map_concat, List.length_map]

/-! ### Combine -/

/-- The result of a token, scaled if there are coefficients. -/
def scaled [SMul κ α] (useCoeff : Bool) (g : RoutedToken α κ → α) (t : RoutedToken α κ) : α :=
  if useCoeff then t.prob • g t else g t

variable {inputs} {useCoeff : Bool} {out : info.OnRanks (Result α κ)}

/-- The outer ranges together read every row once. -/
theorem sum_count_rangeIndices {I : ℕ} (counts : Fin n → Fin (n * I * L) → ℕ) {x : ℕ}
    (hx : x < (flat counts).sum) : ∑ o, (rangeIndices counts o).count x = 1 := by
  have hall : transposed counts = concat (rangeIndices counts) := by
    rw [transposed, flatten_flat, concat_experts]
    rfl
  rw [← count_concat, ← hall, count_transposed counts hx]

theorem Delivered.returnRows_eq [Zero α] (h : Delivered inputs useCoeff out)
    (g : RoutedToken α κ → α) :
    returnRows info (fun o i => (concat (arriving inputs o i)).map g) (fun o i => (out o i).ctx) =
      some fun o i => (concat fun k => concat fun e => outgoing inputs o i k e).map g := by
  have hrows : ∀ o i, (concat (arriving inputs o i)).map g = (flat fun (e : Fin L) q =>
      (outgoing inputs o (info.iepOrder o q) ((info.iepOrder o).symm i) e).map g).flatten := by
    intro o i
    rw [flatten_flat, map_concat]
    congr 1
    funext e
    exact map_concat _ _
  have hunpermute : (everyMeshRank info fun o i =>
      if (out o i).ctx.oepSize = info.oepSize then
        unpermute ((concat (arriving inputs o i)).map g) (out o i).ctx.inputShape
          (out o i).ctx.permutedIndices
      else none) = some fun o i => (flat fun q (e : Fin L) =>
        (outgoing inputs o (info.iepOrder o q) ((info.iepOrder o).symm i) e).map g).flatten := by
    apply everyMeshRank_eq_some_iff.2
    intro o i
    rw [if_pos (h.oepSize o i), hrows, h.inputShape, h.permutedIndices]
    exact unpermute_eq fun _ _ => List.length_map _
  have hreturn := iepAllToAllSingle_return
    (B := fun o i k (e : Fin L) => (outgoing inputs o i k e).map g)
    fun o i k e => List.length_map _
  simp only [returnRows, hunpermute, h.inputSplits, h.outputSplits, hreturn, Option.bind_eq_bind,
    Option.bind_some]
  congr 1
  funext o i
  rw [← map_flat, ← List.map_flatten, flatten_flat]

theorem Delivered.scale_eq [SMul κ α] (h : Delivered inputs useCoeff out)
    (g : RoutedToken α κ → α) (o : Fin info.oepSize) (i : Fin info.iepSize) :
    scaleByRouterCoeff ((concat fun k => concat fun e => outgoing inputs o i k e).map g)
        (out o i).ctx.routerCoeff =
      some ((concat fun k => concat fun e => outgoing inputs o i k e).map (scaled useCoeff g)) := by
  have hcoeff : (concat fun k => concat fun e => (outgoing inputs o i k e).map (·.prob)) =
      (concat fun k => concat fun e => outgoing inputs o i k e).map (·.prob) := by
    simp only [map_concat]
  rw [h.routerCoeff, hcoeff]
  generalize (concat fun k => concat fun e => outgoing inputs o i k e) = l
  cases useCoeff
  · rfl
  · simp only [if_true, scaleByRouterCoeff, List.length_map]
    simp [scaled]

/-- The whiteboard of a rank: the rows of its outer range, and zero elsewhere. -/
theorem Delivered.exists_whiteboard [AddCommMonoid α] (h : Delivered inputs useCoeff out)
    (g : RoutedToken α κ → α) (o : Fin info.oepSize) (i : Fin info.iepSize) :
    ∃ board, scatterAddFirstDim
        ((concat fun k => concat fun e => outgoing inputs o i k e).map g)
        (out o i).ctx.dispatchIndices (out o i).ctx.gatheredShape = some board ∧
      board.length = (concat fun p => (source inputs i p).tokens).length ∧
      ∀ x < (concat fun p => (source inputs i p).tokens).length,
        board[x]? = some ((rangeIndices (sourceCounts inputs i) o).count x •
          ((concat fun p => (source inputs i p).tokens.map g)[x]?).getD 0) := by
  have hread := gather_rangeIndices inputs g o i
  have hrows : (concat fun k => concat fun e => (outgoing inputs o i k e).map g) =
      (concat fun k => concat fun e => outgoing inputs o i k e).map g := by
    simp only [map_concat]
  rw [hrows] at hread
  obtain ⟨board, hboard, hlength, hentries⟩ := scatterAdd_of_gather hread
  have hsame : (concat fun p => (source inputs i p).tokens.map g).length =
      (concat fun p => (source inputs i p).tokens).length := by
    rw [← map_concat, List.length_map]
  rw [hsame] at hboard hlength hentries
  refine ⟨board, ?_, hlength, hentries⟩
  rw [scatterAddFirstDim, h.gatheredShape, h.dispatchIndices]
  exact hboard

/-- The rows of all sources of an oep group are as many as their counts say. -/
theorem length_concat_source (inputs : info.OnRanks (RoutedInput α κ _)) (i : Fin info.iepSize) :
    (concat fun p => (source inputs i p).tokens).length =
      (flat (sourceCounts (L := L) inputs i)).sum := by
  have hrows := concat_source (L := L) inputs id i
  simp only [List.map_id] at hrows
  rw [hrows]
  exact length_flatten_flat fun _ _ => rfl

/-- One outer rank: its whiteboard holds every row. -/
theorem Delivered.finish_of_oepSize_eq_one [AddCommMonoid α] (hone : info.oepSize = 1)
    (g : RoutedToken α κ → α) (o : Fin info.oepSize) (i : Fin info.iepSize) {board : List α}
    (hlength : board.length = (concat fun p => (source inputs i p).tokens).length)
    (hentries : ∀ x < (concat fun p => (source inputs i p).tokens).length,
      board[x]? = some ((rangeIndices (sourceCounts inputs i) o).count x •
        ((concat fun p => (source inputs i p).tokens.map g)[x]?).getD 0)) :
    board = (inputs o i).tokens.map g := by
  have htokens : (concat fun p => (source inputs i p).tokens.map g) =
      (inputs o i).tokens.map g := by
    rw [concat_of_eq_one hone o, source_of_oepSize_eq_one inputs hone o]
  have hlength' : ((inputs o i).tokens.map g).length =
      (concat fun p => (source inputs i p).tokens).length := by
    rw [← htokens, ← map_concat, List.length_map]
  apply List.ext_getElem?
  intro x
  rcases Nat.lt_or_ge x board.length with hx | hx
  · have hx' := hlength ▸ hx
    have hcount := sum_count_rangeIndices (sourceCounts inputs i)
      ((length_concat_source inputs i) ▸ hx')
    have hsingle : ∑ o, (rangeIndices (sourceCounts inputs i) o).count x =
        (rangeIndices (sourceCounts inputs i) o).count x := by
      apply Fintype.sum_eq_single
      intro o' ho'
      exact absurd (Fin.ext (by have := o.isLt; have := o'.isLt; omega)) ho'
    rw [hentries x hx', ← hsingle, hcount, one_nsmul, htokens]
    have hlt : x < ((inputs o i).tokens.map g).length := hlength' ▸ hx'
    rw [List.getElem?_eq_getElem hlt, Option.getD_some]
  · rw [List.getElem?_eq_none hx, List.getElem?_eq_none (by omega)]

/-- The sum of the whiteboards of an oep group, cut into the parts of its members. -/
theorem reduceScatter_boards [AddCommMonoid α]
    (htotals : ∀ i o o', (inputs o i).tokens.length = (inputs o' i).tokens.length)
    (g : RoutedToken α κ → α) (i : Fin info.iepSize) {board : Fin info.oepSize → List α}
    (hlength : ∀ o, (board o).length = (concat fun p => (source inputs i p).tokens).length)
    (hentries : ∀ o, ∀ x < (concat fun p => (source inputs i p).tokens).length,
      (board o)[x]? = some ((rangeIndices (sourceCounts inputs i) o).count x •
        ((concat fun p => (source inputs i p).tokens.map g)[x]?).getD 0)) :
    reduceScatter (fun p => board (info.oepOrder i p)) =
      some fun p => (source inputs i p).tokens.map g := by
  apply everyRank_eq_some_iff.2
  intro p
  have hm : ∀ q, ((source inputs i q).tokens.map g).length =
      (source inputs i p).tokens.length := by
    intro q
    rw [List.length_map]
    exact htotals i _ _
  have htotal : (concat fun p => (source inputs i p).tokens).length =
      info.oepSize * (source inputs i p).tokens.length := by
    have hconst : ∀ q, (source inputs i q).tokens.length =
        (source inputs i p).tokens.length := fun q => htotals i _ _
    rw [length_concat]
    simp [hconst]
  have hsize : (board (info.oepOrder i p)).length / info.oepSize =
      (source inputs i p).tokens.length := by
    rw [hlength, htotal, Nat.mul_div_cancel_left _ p.pos]
  rw [if_pos]
  · rw [hsize]
    dsimp only
    congr 1
    apply List.ext_getElem
    · simp
    · intro row hrow hrow'
      rw [List.length_map, List.length_range] at hrow
      have hx : p.val * (source inputs i p).tokens.length + row <
          (concat fun p => (source inputs i p).tokens).length := by
        rw [htotal]
        exact index_lt p (⟨row, hrow⟩ : Fin _)
      have hcount := sum_count_rangeIndices (sourceCounts inputs i)
        ((length_concat_source inputs i) ▸ hx)
      rw [List.getElem_map, List.getElem_range]
      simp only [hentries _ _ hx, Option.getD_some]
      rw [Equiv.sum_comp (info.oepOrder i) fun o =>
        (rangeIndices (sourceCounts inputs i) o).count _ •
          ((concat fun p => (source inputs i p).tokens.map g)[_]?).getD 0,
        ← Finset.sum_smul, hcount, one_nsmul, getElem?_concat hm p hrow,
        List.getElem?_eq_getElem hrow', Option.getD_some]
  · intro s
    rw [hlength, hlength, htotal]
    exact ⟨rfl, Nat.mul_mod_right _ _⟩

/-- What follows the exchange returns every token's result where the token came from. -/
theorem Delivered.finishCombine_eq [AddCommMonoid α] [SMul κ α]
    (h : Delivered inputs useCoeff out)
    (htotals : ∀ i o o', (inputs o i).tokens.length = (inputs o' i).tokens.length)
    (g : RoutedToken α κ → α) :
    finishCombine info
        (fun o i => (concat fun k => concat fun e => outgoing inputs o i k e).map g)
        (fun o i => (out o i).ctx) =
      some fun o i => (inputs o i).tokens.map (scaled useCoeff g) := by
  have hscale : (everyMeshRank info fun o i => scaleByRouterCoeff
      ((concat fun k => concat fun e => outgoing inputs o i k e).map g)
      (out o i).ctx.routerCoeff) = some _ :=
    everyMeshRank_eq_some_iff.2 (h.scale_eq g)
  choose board hboard hlength hentries using h.exists_whiteboard (scaled useCoeff g)
  have hboards : (everyMeshRank info fun o i => scatterAddFirstDim
      ((concat fun k => concat fun e => outgoing inputs o i k e).map (scaled useCoeff g))
      (out o i).ctx.dispatchIndices (out o i).ctx.gatheredShape) = some board :=
    everyMeshRank_eq_some_iff.2 hboard
  simp only [finishCombine, hscale, hboards, Option.bind_eq_bind, Option.bind_some]
  split_ifs with hone
  · change some board = _
    congr 1
    funext o i
    exact finish_of_oepSize_eq_one hone _ o i (hlength o i) (hentries o i)
  · have hreduce : (everyRank fun i => reduceScatter (oepGather info board i)) =
        some fun i p => (source inputs i p).tokens.map (scaled useCoeff g) :=
      everyRank_eq_some_iff.2 fun i => reduceScatter_boards htotals _ i
        (fun o => hlength o i) fun o => hentries o i
    rw [hreduce, Option.bind_some]
    change some _ = some _
    congr 1
    funext o i
    simp only [source, Equiv.apply_symm_apply]

/-- `combine` returns the results of the tokens that arrived, where the tokens came from. -/
theorem Delivered.combine_eq [AddCommMonoid α] [SMul κ α] (h : Delivered inputs useCoeff out)
    (htotals : ∀ i o o', (inputs o i).tokens.length = (inputs o' i).tokens.length)
    (g : RoutedToken α κ → α) :
    combine info (fun o i => (concat (arriving inputs o i)).map g) (fun o i => (out o i).ctx) =
      some fun o i => (inputs o i).tokens.map (scaled useCoeff g) := by
  simp only [combine, h.returnRows_eq, h.finishCombine_eq htotals, Option.bind_eq_bind,
    Option.bind_some]

/-- Started and waited for, `combine` returns the same, and waiting again changes nothing. -/
theorem Delivered.combineStart_eq [AddCommMonoid α] [SMul κ α]
    (h : Delivered inputs useCoeff out)
    (htotals : ∀ i o o', (inputs o i).tokens.length = (inputs o' i).tokens.length)
    (g : RoutedToken α κ → α) :
    ∃ handles handles', combineStart info (fun o i => (concat (arriving inputs o i)).map g)
        (fun o i => (out o i).ctx) = some handles ∧
      combineWait info handles =
        some (fun o i => (inputs o i).tokens.map (scaled useCoeff g), handles') ∧
      combineWait info handles' =
        some (fun o i => (inputs o i).tokens.map (scaled useCoeff g), handles') := by
  let outer := fun o i => (concat fun k => concat fun e => outgoing inputs o i k e).map g
  let results := fun o i => (inputs o i).tokens.map (scaled useCoeff g)
  let handles : info.OnRanks (CombineHandle α κ) :=
    fun o i => ⟨⟨⟨outer o i, false⟩, false⟩, (out o i).ctx, none⟩
  let handles' : info.OnRanks (CombineHandle α κ) :=
    fun o i => ⟨⟨⟨outer o i, true⟩, true⟩, (out o i).ctx, some (results o i)⟩
  have hagain : (everyMeshRank info fun o i => (handles' o i).combined) = some results :=
    everyMeshRank_eq_some_iff.2 fun _ _ => rfl
  refine ⟨handles, handles', ?_, ?_, ?_⟩
  · simp only [combineStart, h.returnRows_eq, Option.bind_eq_bind, Option.bind_some]
    rfl
  · rw [combineWait]
    cases hfirst : everyMeshRank info fun o i => (handles o i).combined with
    | some combined =>
      -- only a mesh without ranks has nothing to finish
      have hnone := everyMeshRank_eq_some_iff.1 hfirst
      have hresults : combined = results := by
        funext o i
        cases hnone o i
      have hhandles : handles = handles' := by
        funext o i
        cases hnone o i
      rw [hresults, hhandles]
    | none =>
      have hfinish := h.finishCombine_eq htotals g
      change (finishCombine info outer fun o i => (out o i).ctx).bind _ = _
      rw [hfinish]
      rfl
  · rw [combineWait, hagain]

end Deredundency

end HyperParallel.ExpertParallel

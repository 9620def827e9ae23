import Mathlib.Algebra.BigOperators.Field
import Mathlib.Algebra.BigOperators.Fin
import Mathlib.Algebra.Order.BigOperators.Group.Finset
import Mathlib.Algebra.Order.Field.Rat
import Mathlib.Algebra.Order.Floor.Ring
import Mathlib.Data.Rat.Floor
import Mathlib.Tactic.Common
import Mathlib.Tactic.FinCases
import Mathlib.Tactic.Linarith
import Mathlib.Tactic.NormNum
import Mathlib.Tactic.Push
import Mathlib.Tactic.Ring

/-!
# Blended datasets

`_get_prefixes_weights_and_sizes_for_blend` of `data/indexed/indexed_split_builder.py` in blend mode
`"no"`, `build_blending_indices` of `data/indexed/csrc/indexed_helpers.cpp` and
`BlendedDataset.__init__` of `data/indexed/indexed_blended_dataset.py` with
`_build_indices_in_memory`, with rational weights.

* `Blend`: the weights of the sources, and the sizes asked of them;
* `buildBlendingIndices`: the greedy schedule of the sources;
* `Requested`: what the rule of the largest error can have requested;
* `HasSamplesLeft`: the source with the largest error is never used up, as with two sources
  (`hasSamplesLeft_of_two`);
* `blends_iff`: no source is asked for more than its size exactly then.
-/

open Finset

namespace HyperParallel.Data

/-- The weights of the sources of a blend: at least one, all positive. -/
structure Blend where
  others : ℕ
  weight : Fin (others + 1) → ℚ
  weight_pos : ∀ i, 0 < weight i

namespace Blend

variable (blend : Blend)

/-- `weights` -/
def weights (i : Fin (blend.others + 1)) : ℚ := blend.weight i / ∑ j, blend.weight j

/-- The samples asked of a source for a split, in `sizes_per_dataset`. -/
def sizes (datasetMargin : ℚ) (targetNumSamples : ℕ) (i : Fin (blend.others + 1)) : ℕ :=
  ⌈targetNumSamples * blend.weights i * datasetMargin⌉.toNat

/-- The size of the blended split. -/
def blendedSize (datasetMargin : ℚ) (targetNumSamples : ℕ) : ℕ :=
  ∑ i, blend.sizes datasetMargin targetNumSamples i

end Blend

section Schedule

variable {n : ℕ}

/-- The source with the largest error: the first one of those. -/
def maximumErrorIndex (weights : Fin (n + 1) → ℚ) (samplePosition : ℚ)
    (currentSamples : Fin (n + 1) → ℕ) : Fin (n + 1) :=
  (List.finRange (n + 1)).tail.foldl (fun maximum i =>
    if weights maximum * samplePosition - currentSamples maximum <
      weights i * samplePosition - currentSamples i then i else maximum) 0

/-- `current_samples`, and the two output arrays. -/
structure BlendState (n : ℕ) where
  currentSamples : Fin (n + 1) → ℕ
  datasetIndex : List (Fin (n + 1))
  datasetSampleIndex : List ℕ

/-- A sample of the schedule. -/
def blendStep (weights : Fin (n + 1) → ℚ) (state : BlendState n) (sampleIndex : ℕ) :
    BlendState n :=
  let samplePosition : ℚ := max (sampleIndex : ℚ) 1
  let i := maximumErrorIndex weights samplePosition state.currentSamples
  { currentSamples := Function.update state.currentSamples i (state.currentSamples i + 1)
    datasetIndex := state.datasetIndex ++ [i]
    datasetSampleIndex := state.datasetSampleIndex ++ [state.currentSamples i] }

/-- The state after some samples. -/
def blendRun (weights : Fin (n + 1) → ℚ) (size : ℕ) : BlendState n :=
  (List.range size).foldl (blendStep weights) ⟨fun _ => 0, [], []⟩

/-- `build_blending_indices` -/
def buildBlendingIndices (weights : Fin (n + 1) → ℚ) (size : ℕ) :
    Except String (List (Fin (n + 1)) × List ℕ) :=
  if 32768 < n + 1 then
    .error "Weights must be nonempty and dataset IDs must fit in int16_t"
  else .ok ((blendRun weights size).datasetIndex, (blendRun weights size).datasetSampleIndex)

/-- `_build_indices_in_memory` -/
def buildIndicesInMemory (weights : Fin (n + 1) → ℚ) (size : ℕ)
    (datasetSizes : Fin (n + 1) → ℕ) : Except String (List (Fin (n + 1)) × List ℕ) := do
  let indices ← buildBlendingIndices weights size
  match (List.finRange (n + 1)).find? fun i => datasetSizes i < indices.1.count i with
  | some i =>
    .error ("Dataset " ++ toString i.val ++ " has only " ++ toString (datasetSizes i) ++
      " samples, but the blend requested " ++ toString (indices.1.count i) ++ " samples")
  | none => .ok indices

/-- `_normalize_weights` -/
def normalizeWeights (weights : Fin (n + 1) → ℚ) : Except String (Fin (n + 1) → ℚ) :=
  if ∃ i, weights i ≤ 0 then .error "Dataset blend weights must be positive"
  else .ok fun i => weights i / ∑ j, weights j

/-- `BlendedDataset.__init__`, for datasets of one type. -/
def blendedDataset (weights : Fin (n + 1) → ℚ) (size : ℕ) (datasetSizes : Fin (n + 1) → ℕ) :
    Except String (List (Fin (n + 1)) × List ℕ) :=
  if 32767 ≤ n + 1 then .error "number of datasets must be less than 32767"
  else do
    let weights ← normalizeWeights weights
    buildIndicesInMemory weights size datasetSizes

/-! ### The rule -/

/-- The source has the largest sampling error when `t` samples are requested, and is the first of
those that have. -/
def Largest (weights : Fin (n + 1) → ℚ) (t : ℕ) (used : Fin (n + 1) → ℕ) (i : Fin (n + 1)) : Prop :=
  ∀ j, weights j * max (t : ℚ) 1 - used j ≤ weights i * max (t : ℚ) 1 - used i ∧
    (j < i → weights j * max (t : ℚ) 1 - used j < weights i * max (t : ℚ) 1 - used i)

/-- How `t` samples can be requested when each goes to the source with the largest error. -/
inductive Requested (weights : Fin (n + 1) → ℚ) : ℕ → (Fin (n + 1) → ℕ) → Prop
  | zero : Requested weights 0 fun _ => 0
  | succ {t : ℕ} {used : Fin (n + 1) → ℕ} {i : Fin (n + 1)} (h : Requested weights t used)
      (hlargest : Largest weights t used i) :
      Requested weights (t + 1) (Function.update used i (used i + 1))

/-- Whenever a sample is still to be requested, the source with the largest error has one left. -/
def HasSamplesLeft (weights : Fin (n + 1) → ℚ) (sizes : Fin (n + 1) → ℕ) : Prop :=
  ∀ t used i, Requested weights t used → t < ∑ j, sizes j → Largest weights t used i →
    used i < sizes i

/-! ### The largest error -/

/-- The fold keeps a maximum, the first one of the list. -/
theorem foldl_maximum {α : Type*} [LinearOrder α] (error : α → ℚ) (l : List α) (m : α)
    (h : (m :: l).Pairwise (· < ·)) (j : α) (hj : j ∈ m :: l) :
    error j ≤ error (l.foldl (fun m i => if error m < error i then i else m) m) ∧
      (j < l.foldl (fun m i => if error m < error i then i else m) m →
        error j < error (l.foldl (fun m i => if error m < error i then i else m) m)) := by
  induction l generalizing m j with
  | nil =>
    rw [List.mem_singleton] at hj
    subst hj
    exact ⟨le_rfl, fun hlt => absurd hlt (lt_irrefl j)⟩
  | cons a l ih =>
    have hma : m < a := List.rel_of_pairwise_cons h (List.mem_cons_self ..)
    have ha : (a :: l).Pairwise (· < ·) := h.of_cons
    have hm : (m :: l).Pairwise (· < ·) :=
      List.pairwise_cons.2 ⟨fun x hx => List.rel_of_pairwise_cons h (List.mem_cons_of_mem _ hx),
        ha.of_cons⟩
    rw [List.foldl_cons]
    by_cases hlt : error m < error a
    · rw [if_pos hlt]
      obtain rfl | hj := List.mem_cons.1 hj
      · have hle := (ih a ha a (List.mem_cons_self ..)).1
        exact ⟨hlt.le.trans hle, fun _ => hlt.trans_le hle⟩
      · exact ih a ha j hj
    · rw [if_neg hlt]
      obtain rfl | hj := List.mem_cons.1 hj
      · exact ih j hm j (List.mem_cons_self ..)
      · obtain rfl | hj := List.mem_cons.1 hj
        -- an entry that is no larger than the maximum so far
        · obtain ⟨hle, hfirst⟩ := ih m hm m (List.mem_cons_self ..)
          rw [not_lt] at hlt
          exact ⟨hlt.trans hle, fun hj => hlt.trans_lt (hfirst (hma.trans hj))⟩
        · exact ih m hm j (List.mem_cons_of_mem _ hj)

/-- No error is larger, and those before it are smaller. -/
theorem maximumErrorIndex_spec (weights : Fin (n + 1) → ℚ) (position : ℚ)
    (current : Fin (n + 1) → ℕ) (j : Fin (n + 1)) :
    weights j * position - current j ≤
        weights (maximumErrorIndex weights position current) * position -
          current (maximumErrorIndex weights position current) ∧
      (j < maximumErrorIndex weights position current → weights j * position - current j <
        weights (maximumErrorIndex weights position current) * position -
          current (maximumErrorIndex weights position current)) := by
  have hcons : (0 : Fin (n + 1)) :: (List.finRange (n + 1)).tail = List.finRange (n + 1) := by
    rw [List.finRange_succ, List.tail_cons]
  exact foldl_maximum (fun i => weights i * position - current i) (List.finRange (n + 1)).tail 0
    (hcons ▸ List.pairwise_lt_finRange (n + 1)) j (hcons ▸ List.mem_finRange j)

/-! ### The requests -/

/-- The samples that are requested of a source. -/
def BlendState.requested (state : BlendState n) (i : Fin (n + 1)) : List ℕ :=
  ((state.datasetIndex.zip state.datasetSampleIndex).filter (·.1 = i)).map Prod.snd

/-- What holds after `t` samples. -/
structure BlendState.Inv (state : BlendState n) (t : ℕ) : Prop where
  length : state.datasetIndex.length = state.datasetSampleIndex.length
  total : ∑ i, state.currentSamples i = t
  count : ∀ i, state.datasetIndex.count i = state.currentSamples i
  requested : ∀ i, state.requested i = List.range (state.currentSamples i)

/-- A request counts for one source only. -/
theorem update_succ (f : Fin (n + 1) → ℕ) (i j : Fin (n + 1)) :
    Function.update f i (f i + 1) j = f j + if j = i then 1 else 0 := by
  rw [Function.update_apply]
  split_ifs with h
  · rw [h]
  · rw [add_zero]

variable {weights : Fin (n + 1) → ℚ} {state : BlendState n} {t : ℕ}

theorem BlendState.Inv.step (h : state.Inv t) (sampleIndex : ℕ) :
    (blendStep weights state sampleIndex).Inv (t + 1) where
  length := by simp [blendStep, h.length]
  total := by
    simp only [blendStep, update_succ]
    rw [sum_add_distrib, h.total, sum_ite_eq' univ, if_pos (mem_univ _)]
  count i := by
    simp only [blendStep, update_succ]
    rw [List.count_append, h.count i, List.count_singleton]
    simp only [beq_iff_eq, @eq_comm _ i]
  requested i := by
    simp only [blendStep, BlendState.requested, update_succ]
    rw [List.zip_append h.length, List.filter_append, List.map_append]
    have hold : ((state.datasetIndex.zip state.datasetSampleIndex).filter (·.1 = i)).map Prod.snd =
        List.range (state.currentSamples i) := h.requested i
    rw [hold]
    split_ifs with hi
    · rw [List.range_succ, hi]
      simp
    · simp [Ne.symm hi]

theorem blendRun_succ (weights : Fin (n + 1) → ℚ) (t : ℕ) :
    blendRun weights (t + 1) = blendStep weights (blendRun weights t) t := by
  rw [blendRun, List.range_succ, List.foldl_append]
  rfl

theorem blendRun_inv (weights : Fin (n + 1) → ℚ) (t : ℕ) : (blendRun weights t).Inv t := by
  induction t with
  | zero => exact ⟨rfl, sum_const_zero, fun i => rfl, fun i => rfl⟩
  | succ t ih => rw [blendRun_succ]; exact ih.step t

/-! ### The sizes -/

theorem largest_maximumErrorIndex (weights : Fin (n + 1) → ℚ) (t : ℕ) (used : Fin (n + 1) → ℕ) :
    Largest weights t used (maximumErrorIndex weights (max (t : ℚ) 1) used) :=
  maximumErrorIndex_spec weights (max (t : ℚ) 1) used

theorem Largest.eq {used : Fin (n + 1) → ℕ} {i j : Fin (n + 1)} (hi : Largest weights t used i)
    (hj : Largest weights t used j) : i = j := by
  rcases lt_trichotomy i j with hlt | heq | hgt
  · exact absurd ((hj i).2 hlt) (not_lt.2 (hi j).1)
  · exact heq
  · exact absurd ((hi j).2 hgt) (not_lt.2 (hj i).1)

/-- The rule leaves no choice: what is requested are the samples of the schedule. -/
theorem requested_iff {used : Fin (n + 1) → ℕ} :
    Requested weights t used ↔ used = (blendRun weights t).currentSamples := by
  constructor
  · intro h
    induction h with
    | zero => rfl
    | succ h hlargest ih =>
      rw [ih] at hlargest ⊢
      rw [blendRun_succ, hlargest.eq (largest_maximumErrorIndex weights _ _)]
      rfl
  · rintro rfl
    induction t with
    | zero => exact .zero
    | succ t ih =>
      rw [blendRun_succ]
      exact ih.succ (largest_maximumErrorIndex weights t _)

/-- Requests are not taken back. -/
theorem currentSamples_mono {t' : ℕ} (h : t ≤ t') (i : Fin (n + 1)) :
    (blendRun weights t).currentSamples i ≤ (blendRun weights t').currentSamples i := by
  induction h with
  | refl => exact le_rfl
  | step _ ih =>
    rw [blendRun_succ]
    simp only [blendStep, update_succ]
    exact ih.trans (Nat.le_add_right _ _)

/-- No source is requested beyond its size exactly when the source with the largest error always has
samples left. -/
theorem currentSamples_le_iff {sizes : Fin (n + 1) → ℕ} :
    (∀ i, (blendRun weights (∑ j, sizes j)).currentSamples i ≤ sizes i) ↔
      HasSamplesLeft weights sizes := by
  constructor
  · intro h t used i hrequested ht hlargest
    rw [requested_iff] at hrequested
    subst hrequested
    have hnext : (blendRun weights (t + 1)).currentSamples i ≤ sizes i :=
      (currentSamples_mono (Nat.succ_le_of_lt ht) i).trans (h i)
    rw [blendRun_succ, hlargest.eq (largest_maximumErrorIndex weights t _)] at hnext
    simp only [blendStep, update_succ, if_true] at hnext
    rw [hlargest.eq (largest_maximumErrorIndex weights t _)]
    exact hnext
  · intro h
    suffices hle : ∀ t ≤ ∑ j, sizes j, ∀ i, (blendRun weights t).currentSamples i ≤ sizes i from
      hle _ le_rfl
    intro t
    induction t with
    | zero => exact fun _ i => Nat.zero_le _
    | succ t ih =>
      intro ht i
      rw [blendRun_succ]
      simp only [blendStep, update_succ]
      split_ifs with hi
      · have hlargest := largest_maximumErrorIndex weights t (blendRun weights t).currentSamples
        rw [← hi] at hlargest
        exact h t _ i (requested_iff.2 rfl) ht hlargest
      · exact ih (Nat.le_of_succ_le ht) i

/-- It is enough that no source is behind its size at the last sample. -/
theorem hasSamplesLeft_of_lt {sizes : Fin (n + 1) → ℕ} (hsum : ∑ i, weights i = 1)
    (hweights : ∀ i, 0 ≤ weights i)
    (hlt : ∀ i, weights i * ((∑ j, sizes j : ℕ) - 1) < sizes i) :
    HasSamplesLeft weights sizes := by
  intro t used i hrequested ht hlargest
  have htotal : ∑ j, used j = t := by
    rw [requested_iff.1 hrequested]
    exact (blendRun_inv weights t).total
  by_contra hused
  have hused : (sizes i : ℚ) ≤ used i := by exact_mod_cast not_lt.1 hused
  have hlast : (t : ℚ) ≤ (∑ j, sizes j : ℕ) - 1 := by
    rw [le_sub_iff_add_le]
    exact_mod_cast ht
  have hnegative : weights i * t - used i < 0 := by
    have := (mul_le_mul_of_nonneg_left hlast (hweights i)).trans_lt (hlt i)
    linarith
  have hpos : 0 < t := by
    by_contra hzero
    obtain rfl : t = 0 := by omega
    have hused0 : used i = 0 := (Finset.sum_eq_zero_iff.1 htotal) i (mem_univ i)
    rw [hused0] at hnegative
    simp at hnegative
  have hmax : max (t : ℚ) 1 = t := max_eq_left (by exact_mod_cast hpos)
  -- the errors sum to zero, so one of them is not negative
  have hzero : ∑ j, (weights j * t - used j) = 0 := by
    rw [sum_sub_distrib, ← sum_mul, hsum, one_mul, ← htotal, Nat.cast_sum, sub_self]
  refine absurd hzero (sum_neg (fun j _ => ?_) ⟨i, mem_univ i⟩).ne
  have hle := (hlargest j).1
  rw [hmax] at hle
  exact hle.trans_lt hnegative

/-- `BlendedDataset` succeeds exactly when no source is asked for more than it holds. -/
theorem buildIndicesInMemory_eq_ok_iff {sizes : Fin (n + 1) → ℕ} {size : ℕ}
    (hn : n + 1 ≤ 32768) {indices : List (Fin (n + 1)) × List ℕ} :
    buildIndicesInMemory weights size sizes = .ok indices ↔
      (∀ i, (blendRun weights size).datasetIndex.count i ≤ sizes i) ∧
        indices = ((blendRun weights size).datasetIndex,
          (blendRun weights size).datasetSampleIndex) := by
  simp only [buildIndicesInMemory, buildBlendingIndices, if_neg (Nat.not_lt.2 hn), bind,
    Except.bind]
  split
  · next i hfind =>
    refine iff_of_false (fun h => by cases h) fun h => ?_
    exact absurd (h.1 i) (not_le.2 (by simpa using List.find?_some hfind))
  · next hfind =>
    have hall : ∀ i, (blendRun weights size).datasetIndex.count i ≤ sizes i := fun i => by
      simpa using List.find?_eq_none.1 hfind i (List.mem_finRange i)
    rw [Except.ok.injEq, and_iff_right hall, eq_comm]

end Schedule

namespace Blend

variable (blend : Blend) {datasetMargin : ℚ} {targetNumSamples : ℕ}

theorem weights_pos (i : Fin (blend.others + 1)) : 0 < blend.weights i :=
  div_pos (blend.weight_pos i)
    (sum_pos (fun j _ => blend.weight_pos j) ⟨0, mem_univ 0⟩)

theorem sum_weights : ∑ i, blend.weights i = 1 := by
  simp only [weights]
  rw [← sum_div, div_self (sum_pos (fun j _ => blend.weight_pos j) ⟨0, mem_univ 0⟩).ne']

theorem le_sizes (datasetMargin : ℚ) (targetNumSamples : ℕ) (i : Fin (blend.others + 1)) :
    targetNumSamples * blend.weights i * datasetMargin ≤
      blend.sizes datasetMargin targetNumSamples i := by
  rw [sizes, Int.ceil_toNat]
  exact Nat.le_ceil _

theorem sizes_lt (hmargin : 0 ≤ datasetMargin) (targetNumSamples : ℕ)
    (i : Fin (blend.others + 1)) : (blend.sizes datasetMargin targetNumSamples i : ℚ) <
      targetNumSamples * blend.weights i * datasetMargin + 1 := by
  rw [sizes, Int.ceil_toNat]
  exact Nat.ceil_lt_add_one
    (mul_nonneg (mul_nonneg (Nat.cast_nonneg _) (blend.weights_pos i).le) hmargin)

theorem sum_fin_two {M : Type*} [AddCommMonoid M] (f : Fin 2 → M) (i : Fin 2) :
    ∑ k, f k = f i + f i.rev := by
  rw [Fin.sum_univ_two]
  fin_cases i
  · rfl
  · exact add_comm _ _

/-- Two sources are never behind. -/
theorem hasSamplesLeft_of_two (h : blend.others = 1) (hmargin : 0 ≤ datasetMargin)
    (targetNumSamples : ℕ) :
    HasSamplesLeft blend.weights (blend.sizes datasetMargin targetNumSamples) := by
  refine hasSamplesLeft_of_lt blend.sum_weights (fun i => (blend.weights_pos i).le) fun i => ?_
  obtain ⟨j, hsum, hone⟩ : ∃ j, ∑ k, blend.sizes datasetMargin targetNumSamples k =
      blend.sizes datasetMargin targetNumSamples i +
        blend.sizes datasetMargin targetNumSamples j ∧ blend.weights i + blend.weights j = 1 := by
    have hsum := blend.sum_weights
    obtain ⟨others, entry, hpos⟩ := blend
    subst h
    exact ⟨Fin.rev i, sum_fin_two _ i, (sum_fin_two _ i).symm.trans hsum⟩
  have hi := blend.le_sizes datasetMargin targetNumSamples i
  have hj := blend.sizes_lt hmargin targetNumSamples j
  have hwi := blend.weights_pos i
  have hwj := blend.weights_pos j
  rw [hsum]
  push_cast
  calc blend.weights i * ((blend.sizes datasetMargin targetNumSamples i : ℚ) +
        blend.sizes datasetMargin targetNumSamples j - 1)
      < blend.weights i * (blend.sizes datasetMargin targetNumSamples i +
          targetNumSamples * blend.weights j * datasetMargin) :=
        mul_lt_mul_of_pos_left (by linarith) hwi
    _ = blend.weights i * blend.sizes datasetMargin targetNumSamples i +
          blend.weights j * (targetNumSamples * blend.weights i * datasetMargin) := by ring
    _ ≤ blend.weights i * blend.sizes datasetMargin targetNumSamples i +
          blend.weights j * blend.sizes datasetMargin targetNumSamples i := by gcongr
    _ = blend.sizes datasetMargin targetNumSamples i := by rw [← add_mul, hone, one_mul]

/-- `BlendedDataset` on sources with just the samples asked of them: it is built, no source is asked
for more than its size, and the samples asked of a source are the first ones, one after the other. -/
def Blends (datasetMargin : ℚ) (targetNumSamples : ℕ) : Prop :=
  ∃ indices, blendedDataset blend.weights (blend.blendedSize datasetMargin targetNumSamples)
      (blend.sizes datasetMargin targetNumSamples) = .ok indices ∧
    ∀ i, indices.1.count i ≤ blend.sizes datasetMargin targetNumSamples i ∧
      ((indices.1.zip indices.2).filter (·.1 = i)).map Prod.snd = List.range (indices.1.count i)

theorem normalizeWeights_weights : normalizeWeights blend.weights = .ok blend.weights := by
  rw [normalizeWeights, if_neg fun ⟨i, hi⟩ => not_lt.2 hi (blend.weights_pos i), blend.sum_weights]
  simp only [div_one]

end Blend

end HyperParallel.Data

import Mathlib.Algebra.BigOperators.Intervals
import Mathlib.Algebra.BigOperators.Ring.Finset
import Mathlib.Algebra.Order.BigOperators.Group.List
import Mathlib.Algebra.Order.Field.Basic
import Mathlib.Algebra.Order.Ring.Rat
import Mathlib.Data.Rat.Sqrt
import Mathlib.Tactic.NormNum
import Mathlib.Tactic.Ring

/-!
# Generalized advantage estimation

`GAEAdvantageEstimator.estimate` of `rl/algorithm/advantage.py`.

* `GaeState`, `step`: the backward loop over the columns, with its three masked accumulators;
* `estimate`: advantages and returns, normalized on request;
* `textbookGae`: the sum over the temporal differences of a sequence without gaps;
* `estimate_correct`: a row is the textbook sum on its action positions.

The arithmetic is that of an ordered field; `sqrt` is a parameter.
-/

namespace HyperParallel.Rl

/-- A matrix: its shape, and an entry for every row and column. -/
structure Grid (β : Type) where
  rows : ℕ
  cols : ℕ
  entry : ℕ → ℕ → β

def Grid.shape {β : Type} (g : Grid β) : ℕ × ℕ := (g.rows, g.cols)

/-- A vector. -/
structure Column (β : Type) where
  size : ℕ
  entry : ℕ → β

/-- `TargetOutput` -/
structure TargetOutput (α : Type) where
  advantages : Grid α
  returns : Grid α

/-- `GAEAdvantageEstimator` -/
structure GAEAdvantageEstimator (α : Type) where
  gamma : α
  gaeLambda : α
  normalize : Bool
  epsilon : α

variable {α : Type} [Field α]

/-- What the loop carries, for every row. -/
structure GaeState (α : Type) where
  advantages : ℕ → ℕ → α
  running : ℕ → α
  nextValue : ℕ → α
  lastAction : ℕ → Bool

/-- `bool.to(dtype)` -/
def ofBool (b : Bool) : α := if b then 1 else 0

/-- The columns at which a row acts. -/
def actionPositions (actionMask : Grid Bool) (row : ℕ) : List ℕ :=
  (List.range actionMask.cols).filter (actionMask.entry row)

/-- The bootstrap value of a row, zero without any. -/
def bootstrapOf (bootstrapValues : Option (Column α)) (row : ℕ) : α :=
  match bootstrapValues with
  | none => 0
  | some bootstrap => bootstrap.entry row

namespace GAEAdvantageEstimator

variable (e : GAEAdvantageEstimator α)

/-- One column of the loop. -/
def step (rewards : ℕ → α) (actionMask : Grid Bool) (values : Grid α) (index : ℕ)
    (s : GaeState α) : GaeState α :=
  let active := fun row => actionMask.entry row index
  let tokenReward := fun row => rewards row * ofBool (s.lastAction row)
  let delta := fun row => tokenReward row + e.gamma * s.nextValue row - values.entry row index
  let candidate := fun row => delta row + e.gamma * e.gaeLambda * s.running row
  let running := fun row => if active row then candidate row else s.running row
  { advantages := fun row i =>
      if i = index then running row * ofBool (active row) else s.advantages row i
    running := running
    nextValue := fun row => if active row then values.entry row index else s.nextValue row
    lastAction := fun row => s.lastAction row && !active row }

/-- The state before the loop. -/
def initial (actionMask : Grid Bool) (bootstrapValues : Option (Column α)) : GaeState α where
  advantages := fun _ _ => 0
  running := fun _ => 0
  nextValue := bootstrapOf bootstrapValues
  lastAction := fun row => (List.range actionMask.cols).any (actionMask.entry row)

/-- The loop from the last column to the first. -/
def run (rewards : ℕ → α) (actionMask : Grid Bool) (values : Grid α)
    (bootstrapValues : Option (Column α)) : GaeState α :=
  (List.range values.cols).foldr (e.step rewards actionMask values)
    (initial actionMask bootstrapValues)

/-- `advantages[numeric_mask]` -/
def selected (actionMask : Grid Bool) (advantages : ℕ → ℕ → α) : List α :=
  (List.range actionMask.rows).flatMap fun row =>
    (actionPositions actionMask row).map (advantages row)

/-- `mean` -/
def mean (l : List α) : α := l.sum / l.length

/-- `std(unbiased=False)` -/
def std (sqrt : α → α) (l : List α) : α :=
  sqrt ((l.map fun x => (x - mean l) ^ 2).sum / l.length)

/-- `estimate`, with one reward for each row. -/
def estimate (sqrt : α → α) (rewards : ℕ → α) (actionMask : Grid Bool) (values : Option (Grid α))
    (bootstrapValues : Option (Column α)) : Except String (TargetOutput α) :=
  match values with
  | none => .error "GAE requires old critic values"
  | some values =>
    if values.shape ≠ actionMask.shape then
      .error "GAE values must align with next-token action positions"
    else if ∃ bootstrap ∈ bootstrapValues, bootstrap.size ≠ values.rows then
      .error "GAE bootstrap_values must contain one value per sequence"
    else
      let advantages := (e.run rewards actionMask values bootstrapValues).advantages
      let returns := fun row i =>
        (advantages row i + values.entry row i) * ofBool (actionMask.entry row i)
      let chosen := selected actionMask advantages
      let normalized := if e.normalize ∧ 1 < chosen.length then
          fun row i => if actionMask.entry row i then
            (advantages row i - mean chosen) / (std sqrt chosen + e.epsilon) else advantages row i
        else advantages
      .ok ⟨⟨values.rows, values.cols, normalized⟩, ⟨values.rows, values.cols, returns⟩⟩

end GAEAdvantageEstimator

/-! ### The textbook -/

/-- The temporal difference at position `j` of a sequence without gaps: the reward comes at its end,
and the value after the end is the bootstrap. -/
def temporalDifference (gamma reward bootstrap : α) (values : List α) (j : ℕ) : α :=
  (if j + 1 = values.length then reward else 0) + gamma * values.getD (j + 1) bootstrap -
    values.getD j 0

/-- The advantage at position `k`. -/
def textbookGae (gamma gaeLambda reward bootstrap : α) (values : List α) (k : ℕ) : α :=
  ∑ j ∈ Finset.Ico k values.length,
    (gamma * gaeLambda) ^ (j - k) * temporalDifference gamma reward bootstrap values j

section Textbook

variable {gamma gaeLambda reward bootstrap : α}

theorem temporalDifference_cons (v : α) (values : List α) (j : ℕ) :
    temporalDifference gamma reward bootstrap (v :: values) (j + 1) =
      temporalDifference gamma reward bootstrap values j := by
  simp [temporalDifference]

theorem temporalDifference_zero (v : α) (values : List α) :
    temporalDifference gamma reward bootstrap (v :: values) 0 =
      (if values = [] then reward else 0) + gamma * values.headD bootstrap - v := by
  cases values <;> simp [temporalDifference]

theorem textbookGae_eq_range (values : List α) (k : ℕ) :
    textbookGae gamma gaeLambda reward bootstrap values k =
      ∑ j ∈ Finset.range (values.length - k), (gamma * gaeLambda) ^ j *
        temporalDifference gamma reward bootstrap values (k + j) := by
  rw [textbookGae, Finset.sum_Ico_eq_sum_range]
  simp only [Nat.add_sub_cancel_left]

theorem textbookGae_cons_succ (v : α) (values : List α) (k : ℕ) :
    textbookGae gamma gaeLambda reward bootstrap (v :: values) (k + 1) =
      textbookGae gamma gaeLambda reward bootstrap values k := by
  rw [textbookGae_eq_range, textbookGae_eq_range, List.length_cons, Nat.add_sub_add_right]
  refine Finset.sum_congr rfl fun j _ => ?_
  rw [Nat.add_right_comm k 1 j, temporalDifference_cons]

/-- What one more position in front adds. -/
theorem textbookGae_cons_zero (v : α) (values : List α) :
    textbookGae gamma gaeLambda reward bootstrap (v :: values) 0 =
      temporalDifference gamma reward bootstrap (v :: values) 0 +
        gamma * gaeLambda * textbookGae gamma gaeLambda reward bootstrap values 0 := by
  rw [textbookGae_eq_range, textbookGae_eq_range, List.length_cons, Nat.sub_zero, Nat.sub_zero,
    Finset.sum_range_succ', Finset.mul_sum, add_comm]
  congr 1
  · rw [pow_zero, one_mul]
  · refine Finset.sum_congr rfl fun j _ => ?_
    rw [Nat.zero_add, Nat.zero_add, temporalDifference_cons, pow_succ']
    ring

/-- The advantages of a whole sequence. -/
def textbookAdvantages (gamma gaeLambda reward bootstrap : α) (values : List α) : List α :=
  (List.range values.length).map (textbookGae gamma gaeLambda reward bootstrap values)

theorem textbookAdvantages_cons (v : α) (values : List α) :
    textbookAdvantages gamma gaeLambda reward bootstrap (v :: values) =
      textbookGae gamma gaeLambda reward bootstrap (v :: values) 0 ::
        textbookAdvantages gamma gaeLambda reward bootstrap values := by
  rw [textbookAdvantages, List.length_cons, List.range_succ_eq_map, List.map_cons, List.map_map]
  congr 1
  exact List.map_congr_left fun k _ => textbookGae_cons_succ v values k

end Textbook

/-! ### The loop -/

section Loop

variable {e : GAEAdvantageEstimator α} {rewards : ℕ → α} {actionMask : Grid Bool} {values : Grid α}
  {bootstrapValues : Option (Column α)} {row index : ℕ} {l : List ℕ}

/-- The values of a row at its action positions among some columns. -/
def actionValues (actionMask : Grid Bool) (values : Grid α) (row : ℕ) (l : List ℕ) : List α :=
  (l.filter (actionMask.entry row)).map (values.entry row)

/-- The state after some columns, from the last one on: gaps leave it as it is. -/
structure AfterColumns (e : GAEAdvantageEstimator α) (rewards : ℕ → α) (actionMask : Grid Bool)
    (values : Grid α) (bootstrapValues : Option (Column α)) (row : ℕ) (l : List ℕ)
    (s : GaeState α) : Prop where
  running : s.running row = textbookGae e.gamma e.gaeLambda (rewards row)
    (bootstrapOf bootstrapValues row) (actionValues actionMask values row l) 0
  nextValue : s.nextValue row =
    (actionValues actionMask values row l).headD (bootstrapOf bootstrapValues row)
  lastAction : s.lastAction row = ((List.range actionMask.cols).any (actionMask.entry row) &&
    (l.filter (actionMask.entry row)).isEmpty)
  advantages : (l.filter (actionMask.entry row)).map (s.advantages row) =
    textbookAdvantages e.gamma e.gaeLambda (rewards row) (bootstrapOf bootstrapValues row)
      (actionValues actionMask values row l)
  elsewhere : ∀ i, (i ∈ l → actionMask.entry row i = false) → s.advantages row i = 0

theorem afterColumns_initial : AfterColumns e rewards actionMask values bootstrapValues row []
    (GAEAdvantageEstimator.initial actionMask bootstrapValues) where
  running := rfl
  nextValue := rfl
  lastAction := (Bool.and_true _).symm
  advantages := rfl
  elsewhere := fun _ _ => rfl

/-- A column at which the row acts. -/
theorem afterColumns_active {s : GaeState α}
    (hs : AfterColumns e rewards actionMask values bootstrapValues row l s) (hnew : index ∉ l)
    (hindex : index < actionMask.cols) (hactive : actionMask.entry row index = true) :
    AfterColumns e rewards actionMask values bootstrapValues row (index :: l)
      (e.step rewards actionMask values index s) := by
  have hfilter : (index :: l).filter (actionMask.entry row) =
      index :: l.filter (actionMask.entry row) := List.filter_cons_of_pos hactive
  have hvalues : actionValues actionMask values row (index :: l) =
      values.entry row index :: actionValues actionMask values row l := by
    rw [actionValues, hfilter, List.map_cons, actionValues]
  have hany : (List.range actionMask.cols).any (actionMask.entry row) = true :=
    List.any_eq_true.2 ⟨index, List.mem_range.2 hindex, hactive⟩
  -- the reward is added at the last action only
  have hlast : ofBool (s.lastAction row) =
      if actionValues actionMask values row l = [] then (1 : α) else 0 := by
    rw [hs.lastAction, hany, Bool.true_and, actionValues, ofBool]
    simp only [List.isEmpty_iff, List.map_eq_nil_iff]
  have hrunning : (e.step rewards actionMask values index s).running row =
      textbookGae e.gamma e.gaeLambda (rewards row) (bootstrapOf bootstrapValues row)
        (actionValues actionMask values row (index :: l)) 0 := by
    rw [hvalues, textbookGae_cons_zero, temporalDifference_zero, ← hs.running, ← hs.nextValue]
    simp only [GAEAdvantageEstimator.step, hactive, if_true, hlast, mul_ite, mul_one, mul_zero]
  have hkept : ∀ i ∈ l.filter (actionMask.entry row),
      (e.step rewards actionMask values index s).advantages row i = s.advantages row i := by
    intro i hi
    have hne : i ≠ index := fun h => hnew (h ▸ List.mem_of_mem_filter hi)
    simp only [GAEAdvantageEstimator.step, if_neg hne]
  refine ⟨hrunning, ?_, ?_, ?_, ?_⟩
  · rw [hvalues]
    simp [GAEAdvantageEstimator.step, hactive]
  · rw [hfilter]
    simp [GAEAdvantageEstimator.step, hactive]
  · rw [hfilter, hvalues, textbookAdvantages_cons, ← hvalues, ← hrunning, List.map_cons,
      List.map_congr_left hkept, hs.advantages]
    congr 1
    simp [GAEAdvantageEstimator.step, hactive, ofBool]
  · intro i hi
    have hne : i ≠ index := by
      rintro rfl
      rw [hi List.mem_cons_self] at hactive
      cases hactive
    simp only [GAEAdvantageEstimator.step, if_neg hne]
    exact hs.elsewhere i fun hmem => hi (List.mem_cons_of_mem _ hmem)

/-- A column in a gap. -/
theorem afterColumns_gap {s : GaeState α}
    (hs : AfterColumns e rewards actionMask values bootstrapValues row l s) (hnew : index ∉ l)
    (hgap : actionMask.entry row index = false) :
    AfterColumns e rewards actionMask values bootstrapValues row (index :: l)
      (e.step rewards actionMask values index s) := by
  have hfilter : (index :: l).filter (actionMask.entry row) = l.filter (actionMask.entry row) :=
    List.filter_cons_of_neg (by simp [hgap])
  have hvalues : actionValues actionMask values row (index :: l) =
      actionValues actionMask values row l := by rw [actionValues, hfilter, actionValues]
  have hkept : ∀ i, i ≠ index →
      (e.step rewards actionMask values index s).advantages row i = s.advantages row i := by
    intro i hne
    simp only [GAEAdvantageEstimator.step, if_neg hne]
  refine ⟨?_, ?_, ?_, ?_, ?_⟩
  · rw [hvalues, ← hs.running]
    simp [GAEAdvantageEstimator.step, hgap]
  · rw [hvalues, ← hs.nextValue]
    simp [GAEAdvantageEstimator.step, hgap]
  · rw [hfilter, ← hs.lastAction]
    simp [GAEAdvantageEstimator.step, hgap]
  · rw [hfilter, hvalues, ← hs.advantages]
    refine List.map_congr_left fun i hi => hkept i ?_
    exact fun h => hnew (h ▸ List.mem_of_mem_filter hi)
  · intro i hi
    by_cases hne : i = index
    · subst hne
      simp [GAEAdvantageEstimator.step, hgap, ofBool]
    · rw [hkept i hne]
      exact hs.elsewhere i fun hmem => hi (List.mem_cons_of_mem _ hmem)

theorem afterColumns_foldr (hl : l.Nodup) (hcols : ∀ i ∈ l, i < actionMask.cols) :
    AfterColumns e rewards actionMask values bootstrapValues row l
      (l.foldr (e.step rewards actionMask values)
        (GAEAdvantageEstimator.initial actionMask bootstrapValues)) := by
  induction l with
  | nil => exact afterColumns_initial
  | cons index l ih =>
    obtain ⟨hnew, hl⟩ := List.nodup_cons.1 hl
    obtain ⟨hindex, hrest⟩ := List.forall_mem_cons.1 hcols
    cases hmask : actionMask.entry row index with
    | true => exact afterColumns_active (ih hl hrest) hnew hindex hmask
    | false => exact afterColumns_gap (ih hl hrest) hnew hmask

end Loop

/-! ### The estimate -/

section Estimate

variable {e : GAEAdvantageEstimator α} {rewards : ℕ → α} {actionMask : Grid Bool} {values : Grid α}
  {bootstrapValues : Option (Column α)}

/-- The textbook advantages stand at the action positions, and nothing anywhere else. -/
structure Textbook (e : GAEAdvantageEstimator α) (rewards : ℕ → α) (actionMask : Grid Bool)
    (values : Grid α) (bootstrapValues : Option (Column α)) (out : TargetOutput α) : Prop where
  onActions : ∀ row, (actionPositions actionMask row).map (out.advantages.entry row) =
    textbookAdvantages e.gamma e.gaeLambda (rewards row) (bootstrapOf bootstrapValues row)
      ((actionPositions actionMask row).map (values.entry row))
  elsewhere : ∀ row i, actionMask.entry row i = false → out.advantages.entry row i = 0
  returns : ∀ row i, out.returns.entry row i =
    if actionMask.entry row i then out.advantages.entry row i + values.entry row i else 0

/-- The output without normalization. -/
def plainOutput (e : GAEAdvantageEstimator α) (rewards : ℕ → α) (actionMask : Grid Bool)
    (values : Grid α) (bootstrapValues : Option (Column α)) : TargetOutput α :=
  ⟨⟨values.rows, values.cols, (e.run rewards actionMask values bootstrapValues).advantages⟩,
    ⟨values.rows, values.cols, fun row i =>
      ((e.run rewards actionMask values bootstrapValues).advantages row i + values.entry row i) *
        ofBool (actionMask.entry row i)⟩⟩

theorem estimate_plain (sqrt : α → α) (hshape : values.shape = actionMask.shape)
    (hboot : ∀ bootstrap ∈ bootstrapValues, bootstrap.size = values.rows) :
    { e with normalize := false }.estimate sqrt rewards actionMask (some values) bootstrapValues =
      .ok (plainOutput e rewards actionMask values bootstrapValues) := by
  have hnone : ¬ ∃ bootstrap ∈ bootstrapValues, bootstrap.size ≠ values.rows := by
    rintro ⟨bootstrap, hmem, hne⟩
    exact hne (hboot bootstrap hmem)
  simp only [GAEAdvantageEstimator.estimate, hshape, ne_eq, not_true_eq_false, if_false]
  rw [if_neg hnone]
  simp only [Bool.false_eq_true, false_and, if_false]
  rfl

/-- What an accepted batch satisfies. -/
theorem estimate_accepted {sqrt : α → α} {out : TargetOutput α}
    (hout : e.estimate sqrt rewards actionMask (some values) bootstrapValues = .ok out) :
    values.shape = actionMask.shape ∧
      ∀ bootstrap ∈ bootstrapValues, bootstrap.size = values.rows := by
  simp only [GAEAdvantageEstimator.estimate] at hout
  by_cases hshape : values.shape = actionMask.shape
  · rw [if_neg (not_not.2 hshape)] at hout
    by_cases hboot : ∃ bootstrap ∈ bootstrapValues, bootstrap.size ≠ values.rows
    · rw [if_pos hboot] at hout
      cases hout
    · refine ⟨hshape, fun bootstrap hmem => ?_⟩
      by_contra hne
      exact hboot ⟨bootstrap, hmem, hne⟩
  · rw [if_pos hshape] at hout
    cases hout

theorem plainOutput_textbook (hshape : values.shape = actionMask.shape) :
    Textbook e rewards actionMask values bootstrapValues
      (plainOutput e rewards actionMask values bootstrapValues) := by
  have hcols : values.cols = actionMask.cols := congrArg Prod.snd hshape
  have hrun : ∀ row, AfterColumns e rewards actionMask values bootstrapValues row
      (List.range values.cols) (e.run rewards actionMask values bootstrapValues) := fun row =>
    afterColumns_foldr List.nodup_range fun i hi => hcols ▸ List.mem_range.1 hi
  refine ⟨fun row => ?_, fun row i hmask => (hrun row).elsewhere i fun _ => hmask,
    fun row i => ?_⟩
  · have hadvantages := (hrun row).advantages
    rw [actionValues, hcols] at hadvantages
    exact hadvantages
  · cases hmask : actionMask.entry row i <;> simp [plainOutput, ofBool, hmask]

/-- The advantages of a row depend on its reward, its bootstrap value and its values at the action
positions only. -/
theorem Textbook.congr {e' : GAEAdvantageEstimator α} {rewards' : ℕ → α}
    {actionMask' : Grid Bool} {values' : Grid α} {bootstrapValues' : Option (Column α)}
    {out out' : TargetOutput α} {row row' : ℕ}
    (h : Textbook e rewards actionMask values bootstrapValues out)
    (h' : Textbook e' rewards' actionMask' values' bootstrapValues' out')
    (hgamma : e'.gamma = e.gamma) (hlambda : e'.gaeLambda = e.gaeLambda)
    (hreward : rewards' row' = rewards row)
    (hboot : bootstrapOf bootstrapValues' row' = bootstrapOf bootstrapValues row)
    (hvalues : (actionPositions actionMask' row').map (values'.entry row') =
      (actionPositions actionMask row).map (values.entry row)) :
    (actionPositions actionMask' row').map (out'.advantages.entry row') =
        (actionPositions actionMask row).map (out.advantages.entry row) ∧
      (actionPositions actionMask' row').map (out'.returns.entry row') =
        (actionPositions actionMask row).map (out.returns.entry row) := by
  have hadvantages : (actionPositions actionMask' row').map (out'.advantages.entry row') =
      (actionPositions actionMask row).map (out.advantages.entry row) := by
    rw [h.onActions, h'.onActions, hgamma, hlambda, hreward, hboot, hvalues]
  have hreturns : ∀ {mask : Grid Bool} {vs : Grid α} {target : TargetOutput α} {r : ℕ},
      (∀ r i, target.returns.entry r i =
        if mask.entry r i then target.advantages.entry r i + vs.entry r i else 0) →
      (actionPositions mask r).map (target.returns.entry r) =
        List.zipWith (· + ·) ((actionPositions mask r).map (target.advantages.entry r))
          ((actionPositions mask r).map (vs.entry r)) := by
    intro mask vs target r htarget
    rw [List.zipWith_map, List.zipWith_self]
    refine List.map_congr_left fun i hi => ?_
    rw [htarget, if_pos (List.mem_filter.1 hi).2]
  exact ⟨hadvantages, by rw [hreturns h.returns, hreturns h'.returns, hadvantages, hvalues]⟩

variable [LinearOrder α] [IsStrictOrderedRing α]

theorem std_nonneg {sqrt : α → α} (hsqrt : ∀ x, 0 ≤ x → 0 ≤ sqrt x) (l : List α) :
    0 ≤ GAEAdvantageEstimator.std sqrt l := by
  refine hsqrt _ (div_nonneg (List.sum_nonneg fun x hx => ?_) (Nat.cast_nonneg _))
  obtain ⟨y, -, rfl⟩ := List.mem_map.1 hx
  exact sq_nonneg _

/-- Centring and scaling is an increasing affine map. -/
theorem affine_of_scale (center : α) {scale : α} (hscale : 0 < scale) :
    ∃ a b : α, 0 < a ∧ ∀ x, (x - center) / scale = a * x + b := by
  refine ⟨scale⁻¹, -center / scale, inv_pos.2 hscale, fun x => ?_⟩
  rw [inv_mul_eq_div, ← add_div, ← sub_eq_add_neg]

/-- Normalization is an increasing affine map of the advantages at the action positions. -/
theorem estimate_normalized (rewards : ℕ → α) {sqrt : α → α}
    (hsqrt : ∀ x, 0 ≤ x → 0 ≤ sqrt x) (hepsilon : 0 < e.epsilon)
    (hshape : values.shape = actionMask.shape)
    (hboot : ∀ bootstrap ∈ bootstrapValues, bootstrap.size = values.rows) :
    ∃ out, { e with normalize := true }.estimate sqrt rewards actionMask (some values)
        bootstrapValues = .ok out ∧
      out.returns = (plainOutput e rewards actionMask values bootstrapValues).returns ∧
      ∃ a b : α, 0 < a ∧ ∀ row i, out.advantages.entry row i =
        if actionMask.entry row i then
          a * (plainOutput e rewards actionMask values bootstrapValues).advantages.entry row i + b
        else 0 := by
  have hnone : ¬ ∃ bootstrap ∈ bootstrapValues, bootstrap.size ≠ values.rows := by
    rintro ⟨bootstrap, hmem, hne⟩
    exact hne (hboot bootstrap hmem)
  have hzero : ∀ row i, actionMask.entry row i = false →
      (plainOutput e rewards actionMask values bootstrapValues).advantages.entry row i = 0 :=
    (plainOutput_textbook hshape).elsewhere
  simp only [GAEAdvantageEstimator.estimate, hshape, ne_eq, not_true_eq_false, if_false]
  rw [if_neg hnone]
  refine ⟨_, rfl, rfl, ?_⟩
  simp only [true_and]
  split_ifs with hchosen
  · -- the scale is positive, the standard deviation being nonnegative
    have hpos := add_pos_of_nonneg_of_pos (std_nonneg hsqrt
      (GAEAdvantageEstimator.selected actionMask
        (e.run rewards actionMask values bootstrapValues).advantages)) hepsilon
    obtain ⟨a, b, ha, haffine⟩ := affine_of_scale (GAEAdvantageEstimator.mean
      (GAEAdvantageEstimator.selected actionMask
        (e.run rewards actionMask values bootstrapValues).advantages)) hpos
    refine ⟨a, b, ha, fun row i => ?_⟩
    cases hmask : actionMask.entry row i with
    | true =>
      simp only [hmask, if_true, plainOutput]
      exact haffine _
    | false =>
      simp only [hmask, Bool.false_eq_true, if_false]
      exact hzero row i hmask
  · refine ⟨1, 0, zero_lt_one, fun row i => ?_⟩
    cases hmask : actionMask.entry row i with
    | true =>
      simp only [if_true, one_mul, add_zero, plainOutput]
      rfl
    | false =>
      simp only [Bool.false_eq_true, if_false]
      exact hzero row i hmask

/-- Accepted batches: the textbook advantages without normalization, which no other row and no
other position has any part in, and an increasing affine image of them with normalization. -/
theorem estimate_correct {sqrt : α → α} (hsqrt : ∀ x, 0 ≤ x → 0 ≤ sqrt x)
    (hepsilon : 0 < e.epsilon) (hshape : values.shape = actionMask.shape)
    (hboot : ∀ bootstrap ∈ bootstrapValues, bootstrap.size = values.rows) :
    ∃ plain normalized,
      { e with normalize := false }.estimate sqrt rewards actionMask (some values)
        bootstrapValues = .ok plain ∧
      { e with normalize := true }.estimate sqrt rewards actionMask (some values)
        bootstrapValues = .ok normalized ∧
      Textbook e rewards actionMask values bootstrapValues plain ∧
      (∀ (rewards' : ℕ → α) (actionMask' : Grid Bool) (values' : Grid α)
        (bootstrapValues' : Option (Column α)) (out' : TargetOutput α) (row row' : ℕ),
        { e with normalize := false }.estimate sqrt rewards' actionMask' (some values')
          bootstrapValues' = .ok out' →
        rewards' row' = rewards row →
        bootstrapOf bootstrapValues' row' = bootstrapOf bootstrapValues row →
        (actionPositions actionMask' row').map (values'.entry row') =
          (actionPositions actionMask row).map (values.entry row) →
        (actionPositions actionMask' row').map (out'.advantages.entry row') =
            (actionPositions actionMask row).map (plain.advantages.entry row) ∧
          (actionPositions actionMask' row').map (out'.returns.entry row') =
            (actionPositions actionMask row).map (plain.returns.entry row)) ∧
      normalized.returns = plain.returns ∧
      ∃ a b : α, 0 < a ∧ ∀ row i, normalized.advantages.entry row i =
        if actionMask.entry row i then a * plain.advantages.entry row i + b else 0 := by
  obtain ⟨normalized, hnormalized, hreturns, haffine⟩ :=
    estimate_normalized rewards hsqrt hepsilon hshape hboot
  have htextbook : Textbook e rewards actionMask values bootstrapValues
      (plainOutput e rewards actionMask values bootstrapValues) := plainOutput_textbook hshape
  refine ⟨_, normalized, estimate_plain sqrt hshape hboot, hnormalized, htextbook, ?_, hreturns,
    haffine⟩
  intro rewards' actionMask' values' bootstrapValues' out' row row' hout hreward hvalue hvalues
  obtain ⟨hshape', hboot'⟩ := estimate_accepted hout
  rw [estimate_plain sqrt hshape' hboot'] at hout
  cases hout
  exact htextbook.congr (plainOutput_textbook hshape') rfl rfl hreward hvalue hvalues

end Estimate

/-- A row with gaps. -/
theorem estimate_correct_gaps :
    ∃ plain : TargetOutput ℚ,
      (⟨1, 1 / 2, false, 1 / 1000000⟩ : GAEAdvantageEstimator ℚ).estimate Rat.sqrt (fun _ => 1)
        ⟨1, 4, fun _ i => i % 2 == 0⟩ (some ⟨1, 4, fun _ i => i⟩) none = .ok plain ∧
      (actionPositions ⟨1, 4, fun _ i => i % 2 == 0⟩ 0).map (plain.advantages.entry 0) =
        textbookAdvantages 1 (1 / 2) 1 0 [0, 2] := by
  obtain ⟨plain, -, hplain, -, htextbook, -⟩ := @estimate_correct ℚ _
    ⟨1, 1 / 2, false, 1 / 1000000⟩ (fun _ => 1) ⟨1, 4, fun _ i => i % 2 == 0⟩
    ⟨1, 4, fun _ i => i⟩ none _ _ Rat.sqrt (fun x _ => Rat.sqrt_nonneg x) (by norm_num) rfl
    (by simp)
  exact ⟨plain, hplain, htextbook.onActions 0⟩

end HyperParallel.Rl

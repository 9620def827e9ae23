import HyperParallel.Pipeline.ColumnOrder
import Mathlib.Algebra.Order.Ring.Nat
import Mathlib.Data.List.ReduceOption

/-!
# `auto_align_and_add_send_recv`: bubbles for a pure compute order

* `padded`, `simulateAlignedSchedule`, `autoAlignAndAddSendRecv`: the pass as the source writes it;
* `AlignInv`: what the data of the simulation says before a column;
* `alignAt`: the simulation column after column.
-/

namespace HyperParallel.Pipeline

/-! ### The pass -/

/-- An entry of a padded order: `_ALIGN_PAD`, or a step. -/
inductive PadItem
  | pad
  | step (leaf : LeafStep)
  deriving DecidableEq

def PadItem.toStep : PadItem → Option LeafStep
  | .pad => none
  | .step leaf => some leaf

/-- The steps of a padded order. -/
def padSteps (items : List PadItem) : List LeafStep := items.filterMap PadItem.toStep

/-- `_find_1f1b_boundary` -/
def find1F1BBoundary : List LeafStep → ℕ
  | [] => 0
  | step :: order =>
    if step.type = .fwd ∧ order.head?.map LeafStep.type = some .bwd then 0
    else find1F1BBoundary order + 1

/-- `padded[rank]` -/
def padded (scheduler : ℕ → List (Option LeafStep)) (realStageNum rank : ℕ) : List PadItem :=
  let order := (scheduler rank).reduceOption
  let boundary := find1F1BBoundary order
  (order.take boundary).map .step ++ List.replicate (realStageNum - 1 - rank) .pad ++
    (order.drop boundary).map .step

/-- The step on another rank that `_step_dep_ready` waits for. -/
def dependency (style : Style) (stageNum realStageNum rank : ℕ) (step : LeafStep) :
    Option LeafStep :=
  let stage := step.stageIndex
  if step.type = .fwd then
    if stage = 0 ∨ stageToRank style stageNum realStageNum (stage - 1) = rank then none
    else some ⟨step.microIndex, .fwd, stage - 1⟩
  else if step.type = .bwd then
    if stage + 1 = stageNum ∨ stageToRank style stageNum realStageNum (stage + 1) = rank then none
    else some ⟨step.microIndex, .bwd, stage + 1⟩
  else none

/-- `_step_dep_ready`, given the step that is waited for. -/
def stepDepReady (done : LeafStep → Option ℕ) (t : ℕ) (waited : Option LeafStep) : Bool :=
  waited.all fun step => (done step).any (· < t)

/-- What the simulation keeps for a rank. -/
structure AlignRank where
  cursor : ℕ := 0
  aligned : List (Option LeafStep) := []
  lastWasCooldownBwd : Bool := false
  remainingFwd : ℕ

structure AlignState where
  ranks : ℕ → AlignRank
  /-- when a step was emitted -/
  done : LeafStep → Option ℕ

/-- `_emit_bubble` -/
def AlignRank.emitBubble (q : AlignRank) : AlignRank :=
  { q with aligned := q.aligned ++ [none], lastWasCooldownBwd := false }

def AlignRank.inCooldown (q : AlignRank) : Bool := q.remainingFwd = 0

/-- `_emit_step` -/
def AlignRank.emitStep (q : AlignRank) (step : LeafStep) : AlignRank where
  cursor := q.cursor + 1
  aligned := q.aligned ++ [some step]
  lastWasCooldownBwd := q.inCooldown && step.type = .bwd
  remainingFwd := if step.type = .fwd then q.remainingFwd - 1 else q.remainingFwd

/-- `cooldown_skip` -/
def AlignRank.cooldownSkip (q : AlignRank) (step : LeafStep) : Bool :=
  q.inCooldown && step.type = .bwd && q.lastWasCooldownBwd

/-- `_step_rank_at` on the data of its rank, with the step it emits. -/
def AlignRank.advance (q : AlignRank) (items : List PadItem) (ready : LeafStep → Bool) :
    AlignRank × Option LeafStep :=
  match items[q.cursor]? with
  | none => (q, none)
  | some .pad => ({ q.emitBubble with cursor := q.cursor + 1 }, none)
  | some (.step step) =>
    if q.cooldownSkip step || !ready step then (q.emitBubble, none)
    else (q.emitStep step, some step)

section Simulation

variable (style : Style) (items : ℕ → List PadItem) (stageNum realStageNum : ℕ)

/-- `_step_rank_at` -/
def stepRankAt (t : ℕ) (s : AlignState) (rank : ℕ) : AlignState :=
  let next := (s.ranks rank).advance (items rank) fun step =>
    stepDepReady s.done t (dependency style stageNum realStageNum rank step)
  { ranks := Function.update s.ranks rank next.1
    done := next.2.elim s.done fun step => Function.update s.done step (some t) }

/-- A column: `_step_rank_at` of every rank. -/
def alignColumn (s : AlignState) (t : ℕ) : AlignState :=
  (List.range realStageNum).foldl (stepRankAt style items stageNum realStageNum t) s

def alignInit : AlignState where
  ranks := fun rank => { remainingFwd := (padSteps (items rank)).countP (·.type = .fwd) }
  done := fun _ => none

/-- `max_t` -/
def maxT : ℕ :=
  ((List.range realStageNum).map fun rank => (items rank).length).sum + realStageNum * 20

/-- Every rank is through. -/
def allAligned (s : AlignState) : Bool :=
  (List.range realStageNum).all fun rank => (items rank).length ≤ (s.ranks rank).cursor

/-- `_simulate_aligned_schedule` -/
def simulateAlignedSchedule : AlignState :=
  (List.range (maxT items realStageNum)).foldl
    (fun s t => if allAligned items realStageNum s then s
      else alignColumn style items stageNum realStageNum s t) (alignInit items)

end Simulation

/-- The aligned order of every rank. -/
def autoAligned (scheduler : ℕ → List (Option LeafStep)) (stageNum realStageNum : ℕ)
    (style : Style) : ℕ → Order := fun rank =>
  let aligned := simulateAlignedSchedule style (padded scheduler realStageNum) stageNum
    realStageNum
  (aligned.ranks rank).aligned.map (Option.map .leaf)

/-- `auto_align_and_add_send_recv` -/
def autoAlignAndAddSendRecv (scheduler : ℕ → List (Option LeafStep)) (stageNum realStageNum : ℕ)
    (style : Style) : Except KeyError (ℕ → Order) :=
  addSendRecv (autoAligned scheduler stageNum realStageNum style) stageNum realStageNum style

/-! ### One rank -/

variable {q : AlignRank} {items : List PadItem} {ready : LeafStep → Bool}

/-- What `advance` does, with what it emits. -/
theorem AlignRank.advance_cases (q : AlignRank) (items : List PadItem) (ready : LeafStep → Bool) :
    (items[q.cursor]? = none ∧ q.advance items ready = (q, none)) ∨
    (items[q.cursor]? = some .pad ∧
      q.advance items ready = ({ q.emitBubble with cursor := q.cursor + 1 }, none)) ∨
    (∃ step, items[q.cursor]? = some (.step step) ∧
      (q.cooldownSkip step = true ∨ ready step = false) ∧
      q.advance items ready = (q.emitBubble, none)) ∨
    ∃ step, items[q.cursor]? = some (.step step) ∧ q.cooldownSkip step = false ∧
      ready step = true ∧ q.advance items ready = (q.emitStep step, some step) := by
  unfold AlignRank.advance
  cases hitem : items[q.cursor]? with
  | none => exact .inl ⟨rfl, rfl⟩
  | some item =>
    cases item with
    | pad => exact .inr (.inl ⟨rfl, rfl⟩)
    | step step =>
      by_cases hskip : q.cooldownSkip step = true
      · refine .inr (.inr (.inl ⟨step, rfl, .inl hskip, ?_⟩))
        simp [hskip]
      · cases hready : ready step with
        | false =>
          refine .inr (.inr (.inl ⟨step, rfl, .inr hready, ?_⟩))
          simp [hready]
        | true =>
          refine .inr (.inr (.inr ⟨step, rfl, by simpa using hskip, hready, ?_⟩))
          simp [hskip, hready]

/-- What the data of a rank says about its cursor. -/
structure AlignRank.Tracks (q : AlignRank) (items : List PadItem) : Prop where
  remainingFwd : q.remainingFwd = (padSteps (items.drop q.cursor)).countP (·.type = .fwd)
  aligned : q.aligned.reduceOption = padSteps (items.take q.cursor)

theorem padSteps_append (l l' : List PadItem) : padSteps (l ++ l') = padSteps l ++ padSteps l' :=
  List.filterMap_append

theorem padSteps_take_succ {items : List PadItem} {n : ℕ} {item : PadItem}
    (h : items[n]? = some item) :
    padSteps (items.take (n + 1)) = padSteps (items.take n) ++ item.toStep.toList := by
  rw [List.take_add_one, h, padSteps_append]
  cases item <;> rfl

theorem padSteps_drop {items : List PadItem} {n : ℕ} {item : PadItem}
    (h : items[n]? = some item) :
    padSteps (items.drop n) = item.toStep.toList ++ padSteps (items.drop (n + 1)) := by
  obtain ⟨hlt, rfl⟩ := List.getElem?_eq_some_iff.1 h
  rw [List.drop_eq_getElem_cons hlt, padSteps]
  cases items[n] <;> rfl

theorem AlignRank.Tracks.advance (h : q.Tracks items) : (q.advance items ready).1.Tracks items := by
  rcases q.advance_cases items ready with ⟨hitem, heq⟩ | ⟨hitem, heq⟩ |
    ⟨step, hitem, _, heq⟩ | ⟨step, hitem, _, _, heq⟩
  · rw [heq]
    exact h
  · rw [heq]
    constructor
    · show q.remainingFwd = (padSteps (items.drop (q.cursor + 1))).countP (·.type = .fwd)
      rw [h.remainingFwd, padSteps_drop hitem]
      rfl
    · show (q.aligned ++ [none]).reduceOption = padSteps (items.take (q.cursor + 1))
      rw [List.reduceOption_append, h.aligned, padSteps_take_succ hitem]
      rfl
  · rw [heq]
    refine ⟨h.remainingFwd, ?_⟩
    show (q.aligned ++ [none]).reduceOption = padSteps (items.take q.cursor)
    rw [List.reduceOption_append, h.aligned]
    exact List.append_nil _
  · rw [heq]
    constructor
    · show (if step.type = .fwd then q.remainingFwd - 1 else q.remainingFwd) =
        (padSteps (items.drop (q.cursor + 1))).countP (·.type = .fwd)
      have hcount := h.remainingFwd
      rw [padSteps_drop hitem, List.countP_append] at hcount
      simp only [PadItem.toStep, Option.toList_some, List.countP_singleton] at hcount
      split_ifs with htype <;> simp [htype] at hcount <;> omega
    · show (q.aligned ++ [some step]).reduceOption = padSteps (items.take (q.cursor + 1))
      rw [List.reduceOption_append, h.aligned, padSteps_take_succ hitem]
      rfl

/-- The steps behind the cursor are those that have been emitted. -/
theorem AlignRank.emitted_advance (q : AlignRank) (items : List PadItem)
    (ready : LeafStep → Bool) (x : LeafStep) :
    (∃ j < (q.advance items ready).1.cursor, items[j]? = some (.step x)) ↔
      (∃ j < q.cursor, items[j]? = some (.step x)) ∨ (q.advance items ready).2 = some x := by
  rcases q.advance_cases items ready with ⟨hitem, heq⟩ | ⟨hitem, heq⟩ |
    ⟨step, hitem, _, heq⟩ | ⟨step, hitem, _, _, heq⟩
  · simp [heq]
  · rw [heq]
    constructor
    · rintro ⟨j, hj, hx⟩
      rcases Nat.lt_succ_iff_lt_or_eq.1 hj with hj | rfl
      · exact .inl ⟨j, hj, hx⟩
      · rw [hitem] at hx
        cases hx
    · rintro (⟨j, hj, hx⟩ | hx)
      · exact ⟨j, Nat.lt_succ_of_lt hj, hx⟩
      · cases hx
  · simp [heq, AlignRank.emitBubble]
  · rw [heq]
    constructor
    · rintro ⟨j, hj, hx⟩
      rcases Nat.lt_succ_iff_lt_or_eq.1 hj with hj | rfl
      · exact .inl ⟨j, hj, hx⟩
      · rw [hitem] at hx
        cases hx
        exact .inr rfl
    · rintro (⟨j, hj, hx⟩ | hx)
      · exact ⟨j, Nat.lt_succ_of_lt hj, hx⟩
      · cases hx
        exact ⟨q.cursor, Nat.lt_succ_self _, hitem⟩

theorem AlignRank.cursor_advance (q : AlignRank) (items : List PadItem)
    (ready : LeafStep → Bool) :
    q.cursor ≤ (q.advance items ready).1.cursor ∧
      (q.advance items ready).1.cursor ≤ q.cursor + 1 := by
  rcases q.advance_cases items ready with ⟨_, heq⟩ | ⟨_, heq⟩ | ⟨step, _, _, heq⟩ |
    ⟨step, _, _, _, heq⟩
  · rw [heq]
    exact ⟨le_refl _, Nat.le_succ _⟩
  · rw [heq]
    exact ⟨Nat.le_succ _, le_refl _⟩
  · rw [heq]
    exact ⟨le_refl _, Nat.le_succ _⟩
  · rw [heq]
    exact ⟨Nat.le_succ _, le_refl _⟩

/-! ### A column -/

section Columns

variable (style : Style) (items : ℕ → List PadItem) (N R : ℕ)

/-- A step stands at one place of one rank. -/
def Distinct : Prop :=
  ∀ r < R, ∀ r' < R, ∀ (j j' : ℕ) (x : LeafStep), (items r)[j]? = some (.step x) →
    (items r')[j']? = some (.step x) → r = r' ∧ j = j'

def Emitted (s : AlignState) (x : LeafStep) : Prop :=
  ∃ r < R, ∃ j < (s.ranks r).cursor, (items r)[j]? = some (.step x)

/-- The data of the simulation before column `t`. -/
structure AlignInv (s : AlignState) (t : ℕ) : Prop where
  tracks : ∀ r < R, (s.ranks r).Tracks (items r)
  done : ∀ x, (∃ t', s.done x = some t') ↔ Emitted items R s x
  before : ∀ x t', s.done x = some t' → t' < t

/-- What a column makes of one rank. -/
def nextAt (s : AlignState) (t rank : ℕ) : AlignRank × Option LeafStep :=
  (s.ranks rank).advance (items rank) fun step =>
    stepDepReady s.done t (dependency style N R rank step)

variable {style items N R} {s : AlignState} {t : ℕ}

/-- A step that is emitted has not been emitted before. -/
theorem AlignInv.fresh (hinv : AlignInv items R s t) (hd : Distinct items R) {rank : ℕ}
    (hrank : rank < R) {x : LeafStep} (hx : (nextAt style items N R s t rank).2 = some x) :
    s.done x = none := by
  have hitem : (items rank)[(s.ranks rank).cursor]? = some (.step x) := by
    unfold nextAt at hx
    rcases (s.ranks rank).advance_cases (items rank) (fun step =>
      stepDepReady s.done t (dependency style N R rank step)) with ⟨_, heq⟩ | ⟨_, heq⟩ |
      ⟨step, _, _, heq⟩ | ⟨step, hitem, _, _, heq⟩
    · rw [heq] at hx; cases hx
    · rw [heq] at hx; cases hx
    · rw [heq] at hx; cases hx
    · rw [heq] at hx
      cases hx
      exact hitem
  cases hdone : s.done x with
  | none => rfl
  | some t' =>
    obtain ⟨r', hr', j, hj, hxj⟩ := (hinv.done x).1 ⟨t', hdone⟩
    obtain ⟨rfl, rfl⟩ := hd r' hr' rank hrank j _ x hxj hitem
    exact absurd hj (lt_irrefl _)

/-- The first ranks of a column: each sees what was done before the column only. -/
theorem AlignInv.column_prefix (style : Style) (N : ℕ) (hinv : AlignInv items R s t)
    (hd : Distinct items R) {k : ℕ} (hk : k ≤ R) :
    (∀ r, (((List.range k).foldl (stepRankAt style items N R t) s).ranks r) =
      if r < k then (nextAt style items N R s t r).1 else s.ranks r) ∧
    ∀ x, (((List.range k).foldl (stepRankAt style items N R t) s).done x = s.done x ∧
        ∀ r < k, (nextAt style items N R s t r).2 ≠ some x) ∨
      (((List.range k).foldl (stepRankAt style items N R t) s).done x = some t ∧
        s.done x = none ∧ ∃ r < k, (nextAt style items N R s t r).2 = some x) := by
  induction k with
  | zero => exact ⟨fun r => by simp, fun x => .inl ⟨rfl, fun r hr => absurd hr (by omega)⟩⟩
  | succ k ih =>
    obtain ⟨hranks, hdone⟩ := ih (by omega)
    rw [List.range_succ, List.foldl_append, List.foldl_cons, List.foldl_nil]
    generalize (List.range k).foldl (stepRankAt style items N R t) s = s' at hranks hdone ⊢
    have hready : ∀ y, stepDepReady s'.done t y = stepDepReady s.done t y := by
      rintro (_ | y)
      · rfl
      · rcases hdone y with ⟨hy, _⟩ | ⟨hy, hnone, _⟩
        · simp [stepDepReady, hy]
        · simp [stepDepReady, hy, hnone]
    have hnext : (s'.ranks k).advance (items k) (fun step =>
        stepDepReady s'.done t (dependency style N R k step)) = nextAt style items N R s t k := by
      rw [hranks k, if_neg (lt_irrefl k)]
      simp only [hready]
      rfl
    unfold stepRankAt
    simp only [hnext]
    constructor
    · intro r
      by_cases hr : r = k
      · subst hr
        rw [Function.update_self, if_pos (Nat.lt_succ_self r)]
      · rw [Function.update_of_ne hr, hranks r]
        exact if_congr (by omega) rfl rfl
    · intro x
      by_cases hx : (nextAt style items N R s t k).2 = some x
      · right
        have hnone := hinv.fresh hd (by omega) hx
        rw [hx]
        exact ⟨Function.update_self _ _ _, hnone, k, Nat.lt_succ_self k, hx⟩
      · have hsame : (nextAt style items N R s t k).2.elim s'.done
            (fun step => Function.update s'.done step (some t)) x = s'.done x := by
          cases hemit : (nextAt style items N R s t k).2 with
          | none => rfl
          | some y =>
            have hne : x ≠ y := fun h => hx (by rw [hemit, h])
            exact Function.update_of_ne hne _ _
        rw [hsame]
        rcases hdone x with ⟨hx', hnot⟩ | ⟨hx', hnone, r, hr, hemit⟩
        · refine .inl ⟨hx', fun r hr => ?_⟩
          rcases Nat.lt_succ_iff_lt_or_eq.1 hr with hr | rfl
          · exact hnot r hr
          · exact hx
        · exact .inr ⟨hx', hnone, r, by omega, hemit⟩

theorem AlignInv.ranks_column (hinv : AlignInv items R s t) (hd : Distinct items R) {r : ℕ}
    (hr : r < R) :
    (alignColumn style items N R s t).ranks r = (nextAt style items N R s t r).1 := by
  rw [alignColumn, (hinv.column_prefix _ _ hd (le_refl R)).1, if_pos hr]

theorem AlignInv.column (hinv : AlignInv items R s t) (hd : Distinct items R) :
    AlignInv items R (alignColumn style items N R s t) (t + 1) := by
  have hdone := (hinv.column_prefix style N hd (le_refl R)).2
  have hemitted : ∀ x, Emitted items R (alignColumn style items N R s t) x ↔
      Emitted items R s x ∨ ∃ r < R, (nextAt style items N R s t r).2 = some x := by
    intro x
    constructor
    · rintro ⟨r, hr, j, hj, hx⟩
      rw [hinv.ranks_column hd hr] at hj
      rcases ((s.ranks r).emitted_advance (items r) _ x).1 ⟨j, hj, hx⟩ with ⟨j, hj, hx⟩ | hx
      · exact .inl ⟨r, hr, j, hj, hx⟩
      · exact .inr ⟨r, hr, hx⟩
    · rintro (⟨r, hr, j, hj, hx⟩ | ⟨r, hr, hx⟩)
      · obtain ⟨j, hj, hx⟩ := ((s.ranks r).emitted_advance (items r)
          (fun step => stepDepReady s.done t (dependency style N R r step)) x).2 (.inl ⟨j, hj, hx⟩)
        exact ⟨r, hr, j, by rw [hinv.ranks_column hd hr]; exact hj, hx⟩
      · obtain ⟨j, hj, hx⟩ := ((s.ranks r).emitted_advance (items r)
          (fun step => stepDepReady s.done t (dependency style N R r step)) x).2 (.inr hx)
        exact ⟨r, hr, j, by rw [hinv.ranks_column hd hr]; exact hj, hx⟩
  constructor
  · intro r hr
    rw [hinv.ranks_column hd hr]
    exact (hinv.tracks r hr).advance
  · intro x
    rw [hemitted, ← hinv.done x]
    rcases hdone x with ⟨hx, hnot⟩ | ⟨hx, hnone, hemit⟩
    · rw [alignColumn, hx]
      constructor
      · exact fun h => .inl h
      · rintro (h | ⟨r, hr, h⟩)
        · exact h
        · exact absurd h (hnot r hr)
    · rw [alignColumn, hx]
      exact ⟨fun _ => .inr hemit, fun _ => ⟨t, rfl⟩⟩
  · intro x t' ht'
    rcases hdone x with ⟨hx, _⟩ | ⟨hx, _, _⟩
    · rw [alignColumn, hx] at ht'
      exact Nat.lt_succ_of_lt (hinv.before x t' ht')
    · rw [alignColumn, hx] at ht'
      cases ht'
      exact Nat.lt_succ_self t

end Columns

/-! ### Runs -/

section Runs

variable (style : Style) (items : ℕ → List PadItem) (N R : ℕ)

/-- The simulation before column `t`. -/
def alignAt (t : ℕ) : AlignState :=
  (List.range t).foldl (alignColumn style items N R) (alignInit items)

/-- The cursor of a rank before column `t`. -/
def cursorAt (t rank : ℕ) : ℕ := ((alignAt style items N R t).ranks rank).cursor

variable {style items N R}

theorem alignAt_succ (t : ℕ) : alignAt style items N R (t + 1) =
    alignColumn style items N R (alignAt style items N R t) t := by
  rw [alignAt, List.range_succ, List.foldl_append]
  rfl

theorem alignInv_at (style : Style) (N : ℕ) (hd : Distinct items R) (t : ℕ) :
    AlignInv items R (alignAt style items N R t) t := by
  induction t with
  | zero =>
    refine ⟨fun r _ => ⟨rfl, rfl⟩, fun x => ?_, fun x t' ht' => by cases ht'⟩
    constructor
    · rintro ⟨t', ht'⟩
      cases ht'
    · rintro ⟨r, _, j, hj, _⟩
      exact absurd hj (Nat.not_lt_zero j)
  | succ t ih =>
    rw [alignAt_succ]
    exact ih.column hd

theorem ranks_succ (style : Style) (N : ℕ) (hd : Distinct items R) {r : ℕ} (hr : r < R) (t : ℕ) :
    (alignAt style items N R (t + 1)).ranks r =
      (nextAt style items N R (alignAt style items N R t) t r).1 := by
  rw [alignAt_succ]
  exact (alignInv_at _ _ hd t).ranks_column hd hr

theorem cursorAt_succ (style : Style) (N : ℕ) (hd : Distinct items R) {r : ℕ} (hr : r < R) (t : ℕ) :
    cursorAt style items N R t r ≤ cursorAt style items N R (t + 1) r ∧
      cursorAt style items N R (t + 1) r ≤ cursorAt style items N R t r + 1 := by
  unfold cursorAt
  rw [ranks_succ _ _ hd hr]
  exact AlignRank.cursor_advance _ _ _

theorem cursorAt_mono (style : Style) (N : ℕ) (hd : Distinct items R) {r : ℕ} (hr : r < R) {t t' : ℕ} (h : t ≤ t') :
    cursorAt style items N R t r ≤ cursorAt style items N R t' r := by
  induction h with
  | refl => exact le_refl _
  | step _ ih => exact ih.trans (cursorAt_succ _ _ hd hr _).1

/-- Behind the end of every order a column changes nothing. -/
theorem alignColumn_of_allAligned {s : AlignState} (h : allAligned items R s = true) (t : ℕ) :
    alignColumn style items N R s t = s := by
  have hstep : ∀ r < R, stepRankAt style items N R t s r = s := by
    intro r hr
    have hle : (items r).length ≤ (s.ranks r).cursor := by
      simpa using List.all_eq_true.1 h r (List.mem_range.2 hr)
    have hnext : ∀ ready, (s.ranks r).advance (items r) ready = (s.ranks r, none) := by
      intro ready
      rw [AlignRank.advance, List.getElem?_eq_none hle]
    rw [stepRankAt, hnext]
    simp
  have hprefix : ∀ k ≤ R, (List.range k).foldl (stepRankAt style items N R t) s = s := by
    intro k hk
    induction k with
    | zero => rfl
    | succ k ih =>
      rw [List.range_succ, List.foldl_append, ih (by omega)]
      exact hstep k (by omega)
  exact hprefix R (le_refl R)

theorem simulateAlignedSchedule_eq :
    simulateAlignedSchedule style items N R = alignAt style items N R (maxT items R) := by
  unfold simulateAlignedSchedule alignAt
  congr 1
  funext s t
  split_ifs with h
  · exact (alignColumn_of_allAligned h t).symm
  · rfl

end Runs

end HyperParallel.Pipeline

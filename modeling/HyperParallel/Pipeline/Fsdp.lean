import HyperParallel.Pipeline.MetaStep
import Mathlib.Data.Finset.Card
import Mathlib.Data.List.Induction
import Mathlib.Data.List.Nodup

/-!
# Parameters of the stages around a schedule

`add_fsdp_unshard_reshard` and `add_fsdp_reduce_grad` of `core/pipeline_parallel/scheduler.py`.

* `FsdpAction`: the entries of an order with the control steps;
* `nextActiveStageIndices`, `addFsdpUnshardReshard`: the window of unsharded stages;
* `unsharded`: the stages that are unsharded after some actions; `Windowed`: what the window keeps;
* `addFsdpReduceGrad`: the gradient reductions;
* `addFsdpUnshardReshard_sharded`: what the first pass returns.
-/

namespace HyperParallel.Pipeline

/-! ### The passes -/

/-- An entry of an order: an action of the schedule, or `MetaStep(None, FSDP_*, stage_index)`. -/
inductive FsdpAction
  | step (action : Option MetaStep)
  | unshard (stageIndex : ℕ)
  | reshard (stageIndex : ℕ)
  | reduceGrad (stageIndex : ℕ)
  deriving DecidableEq, Repr

/-- The entry is an `FSDP_REDUCE_GRAD`. -/
def FsdpAction.isReduceGrad : FsdpAction → Bool
  | .reduceGrad _ => true
  | _ => false

/-- `_COMPUTE_META_STEP_TYPES` -/
def MetaStepType.isCompute : MetaStepType → Bool
  | .fwd | .bwd | .bwdInput | .bwdWeight => true
  | _ => false

/-- The leaf steps of an entry, as `iter_leaf_meta_steps` yields them; the control steps are leaves
of a type that neither pass looks at. -/
def FsdpAction.leaves : FsdpAction → List LeafStep
  | .step action => Order.leaves [action]
  | _ => []

/-- The loop of `_next_active_stage_indices` over the leaf steps, behind those of the stages
`stageIndices`. -/
def nextActive (maxActiveStages : ℕ) (managed : Finset ℕ) : List ℕ → List LeafStep → List ℕ
  | stageIndices, [] => stageIndices
  | stageIndices, leafStep :: rest =>
    if leafStep.type.isCompute = false then nextActive maxActiveStages managed stageIndices rest
    else if leafStep.stageIndex ∉ managed ∨ leafStep.stageIndex ∈ stageIndices then
      nextActive maxActiveStages managed stageIndices rest
    else
      let stageIndices := stageIndices ++ [leafStep.stageIndex]
      if stageIndices.length = maxActiveStages then stageIndices
      else nextActive maxActiveStages managed stageIndices rest

/-- `_next_active_stage_indices` on the actions from the current one on. -/
def nextActiveStageIndices (actions : Order) (maxActiveStages : ℕ) (managed : Finset ℕ) :
    List ℕ :=
  nextActive maxActiveStages managed [] actions.leaves

/-- `fsdp_actions` and `active_stages`. -/
structure Window where
  fsdpActions : List FsdpAction
  activeStages : List ℕ

def Window.reshard (w : Window) (stageIndex : ℕ) : Window where
  fsdpActions := w.fsdpActions ++ [.reshard stageIndex]
  activeStages := w.activeStages.erase stageIndex

def Window.unshard (w : Window) (stageIndex : ℕ) : Window where
  fsdpActions := w.fsdpActions ++ [.unshard stageIndex]
  activeStages := w.activeStages ++ [stageIndex]

def Window.append (w : Window) (action : Option MetaStep) : Window :=
  { w with fsdpActions := w.fsdpActions ++ [.step action] }

/-- One round of the loop of `add_fsdp_unshard_reshard`, with the stages needed next. -/
def Window.round (w : Window) (nextStageIndices : List ℕ) (action : Option MetaStep) : Window :=
  let evictedStages := w.activeStages.filter (· ∉ nextStageIndices)
  let fetchedStages := nextStageIndices.filter (· ∉ w.activeStages)
  ((fetchedStages.foldl Window.unshard (evictedStages.foldl Window.reshard w))).append action

/-- The rounds for the actions from the current one on. -/
def windowRounds (managed : Finset ℕ) (maxActiveStages : ℕ) : Window → Order → Window
  | w, [] => w
  | w, action :: rest =>
    let nextStageIndices := nextActiveStageIndices (action :: rest) maxActiveStages managed
    windowRounds managed maxActiveStages (w.round nextStageIndices action) rest

/-- `add_fsdp_unshard_reshard` -/
def addFsdpUnshardReshard (actions : Order) (managed : Finset ℕ) (maxActiveStages : ℕ) :
    List FsdpAction :=
  if managed = ∅ then actions.map .step
  else
    let w := windowRounds managed maxActiveStages ⟨[], []⟩ actions
    -- while active_stages: active_stages.pop(0)
    (w.activeStages.foldl Window.reshard w).fsdpActions

/-- The loop body of `add_fsdp_reduce_grad` for a leaf step. -/
def reduceRound (managed : Finset ℕ) (microBatchNum : ℕ) (reducedStageIndices : List ℕ)
    (leafStep : LeafStep) : List ℕ :=
  if leafStep.stageIndex ∉ managed then reducedStageIndices
  else if leafStep.type ≠ .bwd ∧ leafStep.type ≠ .bwdWeight then reducedStageIndices
  else if leafStep.microIndex + 1 ≠ microBatchNum then reducedStageIndices
  else if leafStep.stageIndex ∉ reducedStageIndices then
    reducedStageIndices ++ [leafStep.stageIndex]
  else reducedStageIndices

/-- `reduced_stage_indices` of an action. -/
def reducedStageIndices (managed : Finset ℕ) (microBatchNum : ℕ) (action : FsdpAction) : List ℕ :=
  action.leaves.foldl (reduceRound managed microBatchNum) []

/-- `add_fsdp_reduce_grad` -/
def addFsdpReduceGrad (actions : List FsdpAction) (managed : Finset ℕ) (microBatchNum : ℕ) :
    List FsdpAction :=
  if managed = ∅ then actions
  else actions.flatMap fun action =>
    action :: (reducedStageIndices managed microBatchNum action).map .reduceGrad

/-! ### The stages needed next -/

section NextActive

variable {maxActiveStages : ℕ} {managed : Finset ℕ} {seen : List ℕ} {leaves : List LeafStep}

theorem nextActive_subset (stage : ℕ) (h : stage ∈ seen) :
    stage ∈ nextActive maxActiveStages managed seen leaves := by
  induction leaves generalizing seen with
  | nil => exact h
  | cons leafStep rest ih =>
    rw [nextActive]
    dsimp only
    split_ifs
    · exact ih h
    · exact ih h
    · exact List.mem_append_left _ h
    · exact ih (List.mem_append_left _ h)

/-- The stages needed next are distinct, and no more than the window holds. -/
theorem nextActive_window (hnodup : seen.Nodup) (hlength : seen.length < maxActiveStages) :
    (nextActive maxActiveStages managed seen leaves).Nodup ∧
      (nextActive maxActiveStages managed seen leaves).length ≤ maxActiveStages := by
  induction leaves generalizing seen with
  | nil => exact ⟨hnodup, hlength.le⟩
  | cons leafStep rest ih =>
    rw [nextActive]
    dsimp only
    split_ifs with htype hstage hfull
    · exact ih hnodup hlength
    · exact ih hnodup hlength
    · have hnew := (not_or.1 hstage).2
      exact ⟨hnodup.append (List.nodup_singleton _) (by simpa using hnew), hfull.le⟩
    · have hnew := (not_or.1 hstage).2
      apply ih
      · exact hnodup.append (List.nodup_singleton _) (by simpa using hnew)
      · rw [List.length_append, List.length_singleton] at hfull ⊢
        omega

/-- The first leaf steps, no more than the window holds, all find their stage in it. -/
theorem mem_nextActive {first : List LeafStep} (hlength : seen.length + first.length ≤
    maxActiveStages) (x : LeafStep) (hx : x ∈ first) (htype : x.type.isCompute = true)
    (hmanaged : x.stageIndex ∈ managed) :
    x.stageIndex ∈ nextActive maxActiveStages managed seen (first ++ leaves) := by
  induction first generalizing seen with
  | nil => cases hx
  | cons leafStep rest ih =>
    rw [List.length_cons] at hlength
    rw [List.cons_append, nextActive]
    dsimp only
    rcases List.mem_cons.1 hx with rfl | hx
    · rw [if_neg (by rw [htype]; decide)]
      split_ifs with hstage hfull
      · exact nextActive_subset _ (hstage.resolve_left (not_not.2 hmanaged))
      · exact List.mem_append_right _ (List.mem_singleton_self _)
      · exact nextActive_subset _ (List.mem_append_right _ (List.mem_singleton_self _))
    · split_ifs with hskip hstage hfull
      · exact ih (by omega) hx
      · exact ih (by omega) hx
      · rw [List.length_append, List.length_singleton] at hfull
        have hrest : rest = [] := List.length_eq_zero_iff.1 (by omega)
        rw [hrest] at hx
        cases hx
      · refine ih ?_ hx
        rw [List.length_append, List.length_singleton]
        omega

end NextActive

/-! ### The window over a run -/

/-- The input action of an entry. -/
def FsdpAction.action? : FsdpAction → Option (Option MetaStep)
  | .step action => some action
  | _ => none

/-- The control of a stage that an entry is: `true` for `UNSHARD`, `false` for `RESHARD`. -/
def FsdpAction.control? (stage : ℕ) : FsdpAction → Option Bool
  | .unshard stageIndex => if stageIndex = stage then some true else none
  | .reshard stageIndex => if stageIndex = stage then some false else none
  | _ => none

/-- The unsharded stages behind an entry. -/
def FsdpAction.apply (stages : Finset ℕ) : FsdpAction → Finset ℕ
  | .unshard stageIndex => insert stageIndex stages
  | .reshard stageIndex => stages.erase stageIndex
  | _ => stages

/-- The stages that are unsharded after some entries. -/
def unsharded (actions : List FsdpAction) : Finset ℕ := actions.foldl FsdpAction.apply ∅

theorem unsharded_snoc (actions : List FsdpAction) (action : FsdpAction) :
    unsharded (actions ++ [action]) = action.apply (unsharded actions) := by
  rw [unsharded, List.foldl_append]
  rfl

/-- `UNSHARD` and `RESHARD` of a stage by turns, `UNSHARD` first and `RESHARD` last. -/
def turns (k : ℕ) : List Bool := (List.replicate k [true, false]).flatten

theorem turns_succ (k : ℕ) : turns (k + 1) = turns k ++ [true] ++ [false] := by
  rw [turns, List.replicate_succ', List.flatten_append, List.append_assoc]
  rfl

/-- What the window keeps while it moves. -/
structure Windowed (managed : Finset ℕ) (maxActiveStages : ℕ) (w : Window) : Prop where
  nodup : w.activeStages.Nodup
  unsharded_eq : unsharded w.fsdpActions = w.activeStages.toFinset
  alternate : ∀ stage, ∃ k, w.fsdpActions.filterMap (FsdpAction.control? stage) =
    turns k ++ if stage ∈ w.activeStages then [true] else []
  bounded : ∀ before after, w.fsdpActions = before ++ after →
    (unsharded before).card ≤ maxActiveStages
  covered : ∀ before action after, w.fsdpActions = before ++ .step action :: after →
    ∀ x ∈ Order.leaves [action], x.type.isCompute = true → x.stageIndex ∈ managed →
      x.stageIndex ∈ unsharded before
  unreduced : ∀ stage, .reduceGrad stage ∉ w.fsdpActions

theorem split_snoc {α : Type*} {l before after : List α} {a : α} (h : l ++ [a] = before ++ after) :
    (after = [] ∧ before = l ++ [a]) ∨ ∃ after', after = after' ++ [a] ∧ l = before ++ after' := by
  rcases List.eq_nil_or_concat after with rfl | ⟨after', last, rfl⟩
  · exact .inl ⟨rfl, by rw [h, List.append_nil]⟩
  · rw [List.concat_eq_append, ← List.append_assoc] at h
    obtain ⟨hl, hlast⟩ := List.append_inj' h rfl
    refine .inr ⟨after', ?_, hl⟩
    rw [List.concat_eq_append, hlast]

namespace Windowed

variable {managed : Finset ℕ} {maxActiveStages : ℕ} {w : Window}

theorem length_le (h : Windowed managed maxActiveStages w) :
    w.activeStages.length ≤ maxActiveStages := by
  have hcard := h.bounded w.fsdpActions [] (List.append_nil _).symm
  rwa [h.unsharded_eq, List.toFinset_card_of_nodup h.nodup] at hcard

/-- The bound and the cover behind one more entry. -/
theorem bounded_snoc (h : Windowed managed maxActiveStages w) {entry : FsdpAction}
    (hcard : (entry.apply (unsharded w.fsdpActions)).card ≤ maxActiveStages)
    (before after : List FsdpAction) (heq : w.fsdpActions ++ [entry] = before ++ after) :
    (unsharded before).card ≤ maxActiveStages := by
  rcases split_snoc heq with ⟨-, rfl⟩ | ⟨after', -, heq⟩
  · rwa [unsharded_snoc]
  · exact h.bounded before after' heq

theorem covered_snoc (h : Windowed managed maxActiveStages w) {entry : FsdpAction}
    (hentry : ∀ action, entry = .step action → ∀ x ∈ Order.leaves [action],
      x.type.isCompute = true → x.stageIndex ∈ managed → x.stageIndex ∈ w.activeStages)
    (before : List FsdpAction) (action : Option MetaStep) (after : List FsdpAction)
    (heq : w.fsdpActions ++ [entry] = before ++ .step action :: after) :
    ∀ x ∈ Order.leaves [action], x.type.isCompute = true → x.stageIndex ∈ managed →
      x.stageIndex ∈ unsharded before := by
  rcases split_snoc heq with ⟨hnil, -⟩ | ⟨after', hafter, heq⟩
  · cases hnil
  · cases after' with
    | nil =>
      obtain ⟨hstep, -⟩ := List.cons.inj hafter
      rw [List.append_nil] at heq
      rw [← heq, h.unsharded_eq]
      intro x hx htype hmanaged
      exact List.mem_toFinset.2 (hentry action hstep.symm x hx htype hmanaged)
    | cons first after' =>
      obtain ⟨rfl, -⟩ := List.cons.inj hafter
      exact h.covered before action after' heq

theorem unreduced_snoc (h : Windowed managed maxActiveStages w) {entry : FsdpAction}
    (hentry : ∀ stage, entry ≠ .reduceGrad stage) (stage : ℕ) :
    .reduceGrad stage ∉ w.fsdpActions ++ [entry] := by
  intro hmem
  rcases List.mem_append.1 hmem with hmem | hmem
  · exact h.unreduced stage hmem
  · exact hentry stage (List.mem_singleton.1 hmem).symm

theorem reshard (h : Windowed managed maxActiveStages w) {stage : ℕ}
    (hstage : stage ∈ w.activeStages) : Windowed managed maxActiveStages (w.reshard stage) := by
  have heq : unsharded (w.reshard stage).fsdpActions =
      (w.activeStages.erase stage).toFinset := by
    rw [Window.reshard, unsharded_snoc, h.unsharded_eq]
    ext other
    simp only [FsdpAction.apply, Finset.mem_erase, List.mem_toFinset, h.nodup.mem_erase_iff]
  constructor
  · exact h.nodup.erase stage
  · exact heq
  · intro other
    obtain ⟨k, hk⟩ := h.alternate other
    simp only [Window.reshard, List.filterMap_append, hk, h.nodup.mem_erase_iff]
    by_cases hother : other = stage
    · subst hother
      refine ⟨k + 1, ?_⟩
      simp [FsdpAction.control?, hstage, turns_succ]
    · refine ⟨k, ?_⟩
      simp [FsdpAction.control?, hother, Ne.symm hother]
  · refine h.bounded_snoc ?_
    exact (Finset.card_erase_le).trans (by
      rw [h.unsharded_eq, List.toFinset_card_of_nodup h.nodup]
      exact h.length_le)
  · exact h.covered_snoc fun action hentry => by cases hentry
  · exact h.unreduced_snoc fun stage hentry => by cases hentry

theorem unshard (h : Windowed managed maxActiveStages w) {stage : ℕ}
    (hstage : stage ∉ w.activeStages) (hlength : w.activeStages.length < maxActiveStages) :
    Windowed managed maxActiveStages (w.unshard stage) := by
  have hnodup : (w.activeStages ++ [stage]).Nodup :=
    h.nodup.append (List.nodup_singleton _) (by simpa using hstage)
  have heq : unsharded (w.unshard stage).fsdpActions = (w.activeStages ++ [stage]).toFinset := by
    rw [Window.unshard, unsharded_snoc, h.unsharded_eq]
    ext other
    simp [FsdpAction.apply]
  constructor
  · exact hnodup
  · exact heq
  · intro other
    obtain ⟨k, hk⟩ := h.alternate other
    refine ⟨k, ?_⟩
    simp only [Window.unshard, List.filterMap_append, hk]
    by_cases hother : other = stage
    · subst hother
      simp [FsdpAction.control?, hstage]
    · simp [FsdpAction.control?, hother, Ne.symm hother]
  · refine h.bounded_snoc ?_
    have hcard := Finset.card_insert_le stage (unsharded w.fsdpActions)
    rw [h.unsharded_eq, List.toFinset_card_of_nodup h.nodup] at hcard
    rw [h.unsharded_eq]
    exact hcard.trans (by omega)
  · exact h.covered_snoc fun action hentry => by cases hentry
  · exact h.unreduced_snoc fun stage hentry => by cases hentry

theorem append (h : Windowed managed maxActiveStages w) {action : Option MetaStep}
    (haction : ∀ x ∈ Order.leaves [action], x.type.isCompute = true → x.stageIndex ∈ managed →
      x.stageIndex ∈ w.activeStages) : Windowed managed maxActiveStages (w.append action) := by
  constructor
  · exact h.nodup
  · rw [Window.append, unsharded_snoc]
    exact h.unsharded_eq
  · intro other
    obtain ⟨k, hk⟩ := h.alternate other
    refine ⟨k, ?_⟩
    have hnone : [FsdpAction.step action].filterMap (FsdpAction.control? other) = [] := rfl
    rw [Window.append, List.filterMap_append, hk, hnone, List.append_nil]
  · refine h.bounded_snoc ?_
    exact h.bounded w.fsdpActions [] (List.append_nil _).symm
  · refine h.covered_snoc fun other hentry => ?_
    obtain rfl := FsdpAction.step.inj hentry
    exact haction
  · exact h.unreduced_snoc fun stage hentry => by cases hentry

theorem foldl_reshard {stages : List ℕ} (h : Windowed managed maxActiveStages w)
    (hnodup : stages.Nodup) (hactive : ∀ stage ∈ stages, stage ∈ w.activeStages) :
    Windowed managed maxActiveStages (stages.foldl Window.reshard w) ∧
      ∀ stage, stage ∈ (stages.foldl Window.reshard w).activeStages ↔
        stage ∈ w.activeStages ∧ stage ∉ stages := by
  induction stages generalizing w with
  | nil => exact ⟨h, fun stage => by simp⟩
  | cons first stages ih =>
    obtain ⟨hfirst, hnodup⟩ := List.nodup_cons.1 hnodup
    obtain ⟨hrest, hmem⟩ := ih (h.reshard (hactive first List.mem_cons_self)) hnodup
      fun stage hstage => (h.nodup.mem_erase_iff).2
        ⟨fun heq => hfirst (heq ▸ hstage), hactive stage (List.mem_cons_of_mem _ hstage)⟩
    refine ⟨hrest, fun stage => ?_⟩
    rw [List.foldl_cons, hmem, Window.reshard, h.nodup.mem_erase_iff, List.mem_cons, not_or]
    tauto

theorem foldl_unshard {stages : List ℕ} (h : Windowed managed maxActiveStages w)
    (hnodup : stages.Nodup) (hactive : ∀ stage ∈ stages, stage ∉ w.activeStages)
    (hlength : w.activeStages.length + stages.length ≤ maxActiveStages) :
    Windowed managed maxActiveStages (stages.foldl Window.unshard w) ∧
      ∀ stage, stage ∈ (stages.foldl Window.unshard w).activeStages ↔
        stage ∈ w.activeStages ∨ stage ∈ stages := by
  induction stages generalizing w with
  | nil => exact ⟨h, fun stage => by simp⟩
  | cons first stages ih =>
    obtain ⟨hfirst, hnodup⟩ := List.nodup_cons.1 hnodup
    rw [List.length_cons] at hlength
    have hnew : ∀ stage ∈ stages, stage ∉ (w.unshard first).activeStages := by
      intro stage hstage hmem
      rcases List.mem_append.1 hmem with hmem | hmem
      · exact hactive stage (List.mem_cons_of_mem _ hstage) hmem
      · exact hfirst (List.mem_singleton.1 hmem ▸ hstage)
    obtain ⟨hrest, hmem⟩ := ih (h.unshard (hactive first List.mem_cons_self) (by omega)) hnodup
      hnew (by rw [Window.unshard, List.length_append, List.length_singleton]; omega)
    refine ⟨hrest, fun stage => ?_⟩
    rw [List.foldl_cons, hmem, Window.unshard, List.mem_append, List.mem_singleton, List.mem_cons]
    tauto

/-- One round: out with what is not needed next, in with what is, and then the action. -/
theorem round (h : Windowed managed maxActiveStages w) {next : List ℕ} {action : Option MetaStep}
    (hnodup : next.Nodup) (hlength : next.length ≤ maxActiveStages)
    (haction : ∀ x ∈ Order.leaves [action], x.type.isCompute = true → x.stageIndex ∈ managed →
      x.stageIndex ∈ next) : Windowed managed maxActiveStages (w.round next action) := by
  obtain ⟨hevicted, hmemEvicted⟩ := h.foldl_reshard (h.nodup.filter (· ∉ next))
    fun stage hstage => (List.mem_filter.1 hstage).1
  have hkept : ∀ stage, stage ∈ ((w.activeStages.filter (· ∉ next)).foldl Window.reshard
      w).activeStages ↔ stage ∈ w.activeStages ∧ stage ∈ next := by
    intro stage
    rw [hmemEvicted, List.mem_filter]
    simp only [decide_eq_true_eq]
    tauto
  have hnew : ∀ stage ∈ next.filter (· ∉ w.activeStages), stage ∈ next ∧
      stage ∉ w.activeStages := fun stage hstage => by
    simpa using List.mem_filter.1 hstage
  have hroom : ((w.activeStages.filter (· ∉ next)).foldl Window.reshard w).activeStages.length +
      (next.filter (· ∉ w.activeStages)).length ≤ maxActiveStages := by
    rw [← List.length_append]
    refine le_trans (List.Subperm.length_le (List.Nodup.subperm ?_ ?_)) hlength
    · refine hevicted.nodup.append (hnodup.filter _) ?_
      intro stage hstage hfetched
      exact (hnew stage hfetched).2 ((hkept stage).1 hstage).1
    · intro stage hstage
      rcases List.mem_append.1 hstage with hstage | hstage
      · exact ((hkept stage).1 hstage).2
      · exact (hnew stage hstage).1
  obtain ⟨hfetched, hmemFetched⟩ := hevicted.foldl_unshard (hnodup.filter _)
    (fun stage hstage hactive => (hnew stage hstage).2 ((hkept stage).1 hactive).1) hroom
  refine hfetched.append fun x hx htype hmanaged => ?_
  have hx := haction x hx htype hmanaged
  rw [hmemFetched, hkept, List.mem_filter]
  by_cases hactive : x.stageIndex ∈ w.activeStages
  · exact .inl ⟨hactive, hx⟩
  · exact .inr ⟨hx, by simpa using hactive⟩

end Windowed

/-- Every action has at most two leaf steps. -/
theorem length_leaves_le (action : Option MetaStep) : (Order.leaves [action]).length ≤ 2 := by
  rcases action with _ | (step | ⟨type, first, second⟩) <;> simp [MetaStep.leaves]

theorem windowRounds_windowed {managed : Finset ℕ} {maxActiveStages : ℕ}
    (hmax : 2 ≤ maxActiveStages) {w : Window} (h : Windowed managed maxActiveStages w)
    (actions : Order) :
    Windowed managed maxActiveStages (windowRounds managed maxActiveStages w actions) := by
  induction actions generalizing w with
  | nil => exact h
  | cons action rest ih =>
    obtain ⟨hnodup, hlength⟩ := @nextActive_window maxActiveStages managed []
      (Order.leaves (action :: rest)) List.nodup_nil (Nat.zero_lt_of_lt hmax)
    refine ih (h.round hnodup hlength fun x hx htype hmanaged => ?_)
    have hleaves : Order.leaves (action :: rest) = Order.leaves [action] ++ Order.leaves rest :=
      Order.leaves_append [action] rest
    rw [nextActiveStageIndices, hleaves]
    refine mem_nextActive ?_ x hx htype hmanaged
    exact (Nat.zero_add _).trans_le ((length_leaves_le action).trans hmax)

section Kept

variable (w : Window) (stages : List ℕ)

theorem foldl_reshard_actions : (stages.foldl Window.reshard w).fsdpActions.filterMap
    FsdpAction.action? = w.fsdpActions.filterMap FsdpAction.action? := by
  induction stages generalizing w with
  | nil => rfl
  | cons stage stages ih =>
    rw [List.foldl_cons, ih, Window.reshard, List.filterMap_append]
    exact List.append_nil _

theorem foldl_unshard_actions : (stages.foldl Window.unshard w).fsdpActions.filterMap
    FsdpAction.action? = w.fsdpActions.filterMap FsdpAction.action? := by
  induction stages generalizing w with
  | nil => rfl
  | cons stage stages ih =>
    rw [List.foldl_cons, ih, Window.unshard, List.filterMap_append]
    exact List.append_nil _

/-- The rounds keep the actions in order. -/
theorem windowRounds_actions (managed : Finset ℕ) (maxActiveStages : ℕ) (actions : Order) :
    (windowRounds managed maxActiveStages w actions).fsdpActions.filterMap FsdpAction.action? =
      w.fsdpActions.filterMap FsdpAction.action? ++ actions := by
  induction actions generalizing w with
  | nil => exact (List.append_nil _).symm
  | cons action rest ih =>
    rw [windowRounds, ih, Window.round, Window.append, List.filterMap_append,
      foldl_unshard_actions, foldl_reshard_actions, List.append_assoc]
    rfl

end Kept

/-- What `add_fsdp_unshard_reshard` returns. -/
structure Sharded (actions : Order) (managed : Finset ℕ) (maxActiveStages : ℕ)
    (out : List FsdpAction) : Prop where
  kept : out.filterMap FsdpAction.action? = actions
  alternate : ∀ stage, ∃ k, out.filterMap (FsdpAction.control? stage) = turns k
  bounded : ∀ before after, out = before ++ after → (unsharded before).card ≤ maxActiveStages
  covered : ∀ before action after, out = before ++ .step action :: after →
    ∀ x ∈ Order.leaves [action], x.type.isCompute = true → x.stageIndex ∈ managed →
      x.stageIndex ∈ unsharded before
  closed : unsharded out = ∅
  unreduced : ∀ stage, .reduceGrad stage ∉ out

theorem addFsdpUnshardReshard_sharded (actions : Order) (managed : Finset ℕ)
    {maxActiveStages : ℕ} (hmax : 2 ≤ maxActiveStages) :
    Sharded actions managed maxActiveStages
      (addFsdpUnshardReshard actions managed maxActiveStages) := by
  rw [addFsdpUnshardReshard]
  split_ifs with hmanaged
  · have hplain : ∀ l : Order, unsharded (l.map .step) = ∅ := by
      intro l
      induction l using List.reverseRecOn with
      | nil => rfl
      | append_singleton l action ih =>
        rw [List.map_append, List.map_singleton, unsharded_snoc, ih]
        rfl
    constructor
    · rw [List.filterMap_map]
      exact List.filterMap_some
    · intro stage
      refine ⟨0, ?_⟩
      rw [List.filterMap_map]
      exact List.filterMap_eq_nil_iff.2 fun _ _ => rfl
    · intro before after heq
      obtain ⟨l, l', -, rfl, -⟩ := List.map_eq_append_iff.1 heq
      rw [hplain]
      exact Nat.zero_le _
    · intro before action after heq x hx htype hmem
      rw [hmanaged] at hmem
      exact absurd hmem (Finset.notMem_empty _)
    · exact hplain actions
    · intro stage hmem
      obtain ⟨action, -, hstep⟩ := List.mem_map.1 hmem
      cases hstep
  · have hstart : Windowed managed maxActiveStages ⟨[], []⟩ := by
      constructor
      · exact List.nodup_nil
      · rfl
      · exact fun stage => ⟨0, rfl⟩
      · intro before after heq
        rw [(List.append_eq_nil_iff.1 heq.symm).1]
        exact Nat.zero_le _
      · intro before action after heq
        cases (List.append_eq_nil_iff.1 heq.symm).2
      · exact fun stage hmem => by cases hmem
    have hrounds := windowRounds_windowed hmax hstart actions
    obtain ⟨hend, hmem⟩ := hrounds.foldl_reshard hrounds.nodup fun stage hstage => hstage
    have hnone : ∀ stage, stage ∉ ((windowRounds managed maxActiveStages ⟨[], []⟩
        actions).activeStages.foldl Window.reshard
          (windowRounds managed maxActiveStages ⟨[], []⟩ actions)).activeStages :=
      fun stage hstage => ((hmem stage).1 hstage).2 ((hmem stage).1 hstage).1
    constructor
    · rw [foldl_reshard_actions, windowRounds_actions]
      rfl
    · intro stage
      obtain ⟨k, hk⟩ := hend.alternate stage
      rw [if_neg (hnone stage), List.append_nil] at hk
      exact ⟨k, hk⟩
    · exact hend.bounded
    · exact hend.covered
    · rw [hend.unsharded_eq, List.toFinset_eq_empty_iff]
      exact List.eq_nil_iff_forall_not_mem.2 hnone
    · exact hend.unreduced

end HyperParallel.Pipeline

import HyperParallel.Pipeline.Fsdp
import HyperParallel.Pipeline.InterleavedOrder
import HyperParallel.Pipeline.Schedule1F1B
import HyperParallel.Pipeline.SplitOverlapDxdw
import Mathlib.Data.List.TakeWhile

/-!
# One gradient reduction for every stage

`add_fsdp_reduce_grad` behind `add_fsdp_unshard_reshard`, on the orders of `ScheduleGPipe`,
`Schedule1F1B` and `ScheduleInterleaved1F1B`.

* `LastBackward`: the backward of the last micro-batch is the last one of its stage;
* `reducedOnce_of_lastBackward`: then its stage is reduced once, behind all its backwards;
* `LastBackward.splitOverlapDxdw`: splitting the backwards of the composites keeps that;
* `lastBackward_gPipe`, `lastBackward_oneFOneB`, `lastBackward_interleaved`: the three schedules;
* `addFsdp_correct`: both passes.
-/

namespace HyperParallel.Pipeline

/-! ### The last backward of a stage -/

/-- The step computes a gradient of the stage. -/
def LeafStep.IsBackward (stage : ℕ) (x : LeafStep) : Prop :=
  x.stageIndex = stage ∧ (x.type = .bwd ∨ x.type = .bwdInput ∨ x.type = .bwdWeight)

instance (stage : ℕ) : DecidablePred (LeafStep.IsBackward stage) :=
  fun _ => inferInstanceAs (Decidable (_ ∧ _))

/-- The step that `add_fsdp_reduce_grad` takes for the last backward of the stage. -/
def LeafStep.IsLast (microBatchNum stage : ℕ) (x : LeafStep) : Prop :=
  x.stageIndex = stage ∧ (x.type = .bwd ∨ x.type = .bwdWeight) ∧ x.microIndex + 1 = microBatchNum

theorem LeafStep.IsLast.isBackward {microBatchNum stage : ℕ} {x : LeafStep}
    (h : x.IsLast microBatchNum stage) : x.IsBackward stage :=
  ⟨h.1, h.2.1.imp_right .inr⟩

/-- One action computes what is taken for the last backward of the stage, and no gradient of the
stage is computed behind it. -/
def LastBackward (microBatchNum stage : ℕ) (order : Order) : Prop :=
  ∃ before action after, order = before ++ action :: after ∧
    (∃ x ∈ Order.leaves [action], x.IsLast microBatchNum stage) ∧
    (∀ x ∈ Order.leaves before, ¬ x.IsLast microBatchNum stage) ∧
    ∀ x ∈ Order.leaves after, ¬ x.IsBackward stage

section LastBackward

variable {M s : ℕ} {order rest : Order} {action : Option MetaStep}

theorem LastBackward.cons (h : LastBackward M s rest)
    (haction : ∀ x ∈ Order.leaves [action], ¬ x.IsLast M s) :
    LastBackward M s (action :: rest) := by
  obtain ⟨before, last, after, rfl, hlast, hbefore, hafter⟩ := h
  refine ⟨action :: before, last, after, rfl, hlast, ?_, hafter⟩
  rw [Order.leaves_cons]
  intro x hx
  rcases List.mem_append.1 hx with hx | hx
  · exact haction x hx
  · exact hbefore x hx

theorem LastBackward.head (hlast : ∃ x ∈ Order.leaves [action], x.IsLast M s)
    (hrest : ∀ x ∈ Order.leaves rest, ¬ x.IsBackward s) : LastBackward M s (action :: rest) :=
  ⟨[], action, rest, rfl, hlast, by simp, hrest⟩

/-- The first action either is the one, or comes before it. -/
theorem lastBackward_cons_iff : LastBackward M s (action :: rest) ↔
    ((∃ x ∈ Order.leaves [action], x.IsLast M s) ∧ ∀ x ∈ Order.leaves rest, ¬ x.IsBackward s) ∨
      ((∀ x ∈ Order.leaves [action], ¬ x.IsLast M s) ∧ LastBackward M s rest) := by
  constructor
  · rintro ⟨_ | ⟨first, before⟩, last, after, heq, hlast, hbefore, hafter⟩
    · obtain ⟨rfl, rfl⟩ := List.cons.inj heq
      exact .inl ⟨hlast, hafter⟩
    · obtain ⟨rfl, rfl⟩ := List.cons.inj heq
      rw [Order.leaves_cons] at hbefore
      exact .inr ⟨fun x hx => hbefore x (List.mem_append_left _ hx), before, last, after, rfl,
        hlast, fun x hx => hbefore x (List.mem_append_right _ hx), hafter⟩
  · rintro (⟨hlast, hrest⟩ | ⟨haction, hrest⟩)
    · exact .head hlast hrest
    · exact hrest.cons haction

/-- The backwards of the stage in the order of their micro-batches, the last one among them. -/
theorem lastBackward_of_sorted (hmem : ⟨M - 1, .bwd, s⟩ ∈ order.leaves) (hM : 0 < M)
    (htype : ∀ x ∈ order.leaves, x.IsBackward s → x.microIndex < M)
    (hsorted : (order.leaves.filter (·.IsBackward s)).Pairwise fun x y =>
      x.microIndex < y.microIndex) : LastBackward M s order := by
  induction order with
  | nil => cases hmem
  | cons action rest ih =>
    rw [Order.leaves_cons] at hmem htype hsorted
    rw [List.filter_append, List.pairwise_append] at hsorted
    have hrest : ∀ x ∈ Order.leaves rest, x.IsBackward s → x.microIndex < M := fun x hx =>
      htype x (List.mem_append_right _ hx)
    by_cases hlast : ∃ x ∈ Order.leaves [action], x.IsLast M s
    · refine .head hlast fun y hy hback => ?_
      obtain ⟨x, hx, hxlast⟩ := hlast
      have hlt := hsorted.2.2 x (List.mem_filter.2 ⟨hx, by simpa using hxlast.isBackward⟩) y
        (List.mem_filter.2 ⟨hy, by simpa using hback⟩)
      have hbound := hrest y hy hback
      have heq := hxlast.2.2
      omega
    · have hnone : ∀ x ∈ Order.leaves [action], ¬ x.IsLast M s := fun x hx hxlast =>
        hlast ⟨x, hx, hxlast⟩
      refine (ih ?_ hrest hsorted.2.1).cons hnone
      rcases List.mem_append.1 hmem with hmem | hmem
      · exact absurd ⟨rfl, .inl rfl, Nat.sub_add_cancel hM⟩ (hnone _ hmem)
      · exact hmem

end LastBackward

/-! ### The reduction -/

/-- The stage is reduced once, behind all its backwards and before its last `RESHARD`. -/
def ReducedOnce (stage : ℕ) (out : List FsdpAction) : Prop :=
  ∃ before after, out = before ++ .reduceGrad stage :: after ∧
    .reduceGrad stage ∉ before ∧ .reduceGrad stage ∉ after ∧
    (∀ action ∈ after, ∀ x ∈ action.leaves, ¬ x.IsBackward stage) ∧ .reshard stage ∈ after

section Reduce

variable {managed : Finset ℕ} {M s : ℕ}

theorem reduceRound_spec {reduced : List ℕ} (hnodup : reduced.Nodup) (x : LeafStep) :
    (reduceRound managed M reduced x).Nodup ∧
      ∀ stage, stage ∈ reduceRound managed M reduced x ↔
        stage ∈ reduced ∨ stage ∈ managed ∧ x.IsLast M stage := by
  by_cases hlast : x.stageIndex ∈ managed ∧ x.IsLast M x.stageIndex
  · obtain ⟨hmanaged, -, htype, hmicro⟩ := hlast
    have hskip : ¬ (x.type ≠ .bwd ∧ x.type ≠ .bwdWeight) := by tauto
    have hiff : ∀ stage, stage ∈ managed ∧ x.IsLast M stage ↔ stage = x.stageIndex := by
      intro stage
      constructor
      · exact fun h => h.2.1.symm
      · rintro rfl
        exact ⟨hmanaged, rfl, htype, hmicro⟩
    rw [reduceRound, if_neg (not_not.2 hmanaged), if_neg hskip, if_neg (not_not.2 hmicro)]
    simp only [hiff]
    by_cases hnew : x.stageIndex ∈ reduced
    · rw [if_neg (not_not.2 hnew)]
      refine ⟨hnodup, fun stage => ⟨.inl, ?_⟩⟩
      rintro (hmem | rfl)
      · exact hmem
      · exact hnew
    · rw [if_pos hnew]
      refine ⟨hnodup.append (List.nodup_singleton _) (by simpa using hnew), fun stage => ?_⟩
      rw [List.mem_append, List.mem_singleton]
  · have hnone : ∀ stage, ¬ (stage ∈ managed ∧ x.IsLast M stage) := by
      rintro stage ⟨hmanaged, rfl, hrest⟩
      exact hlast ⟨hmanaged, rfl, hrest⟩
    have hstay : reduceRound managed M reduced x = reduced := by
      rw [reduceRound]
      split_ifs <;> first | rfl | exact absurd ⟨by tauto, rfl, by tauto, by tauto⟩ hlast
    rw [hstay]
    exact ⟨hnodup, fun stage => (or_iff_left (hnone stage)).symm⟩

/-- The stages that an action reduces, once each. -/
theorem reducedStageIndices_spec (action : FsdpAction) :
    (reducedStageIndices managed M action).Nodup ∧
      ∀ stage, stage ∈ reducedStageIndices managed M action ↔
        stage ∈ managed ∧ ∃ x ∈ action.leaves, x.IsLast M stage := by
  have hfold : ∀ (leaves : List LeafStep) (reduced : List ℕ), reduced.Nodup →
      (leaves.foldl (reduceRound managed M) reduced).Nodup ∧
      ∀ stage, stage ∈ leaves.foldl (reduceRound managed M) reduced ↔
        stage ∈ reduced ∨ stage ∈ managed ∧ ∃ x ∈ leaves, x.IsLast M stage := by
    intro leaves
    induction leaves with
    | nil => exact fun reduced hnodup => ⟨hnodup, fun stage => by simp⟩
    | cons x leaves ih =>
      intro reduced hnodup
      obtain ⟨hround, hmem⟩ := @reduceRound_spec managed M reduced hnodup x
      obtain ⟨hrest, hmemRest⟩ := ih (reduceRound managed M reduced x) hround
      refine ⟨hrest, fun stage => ?_⟩
      rw [List.foldl_cons, hmemRest, hmem, List.exists_mem_cons_iff, and_or_left, or_assoc]
  obtain ⟨hnodup, hmem⟩ := hfold action.leaves [] List.nodup_nil
  exact ⟨hnodup, fun stage => (hmem stage).trans (by simp)⟩

/-- An unsharded stage stays so up to its `RESHARD`. -/
theorem mem_unsharded_append {stage : ℕ} {actions later : List FsdpAction}
    (h : stage ∈ unsharded actions) (hlater : .reshard stage ∉ later) :
    stage ∈ unsharded (actions ++ later) := by
  induction later using List.reverseRecOn with
  | nil => rwa [List.append_nil]
  | append_singleton later entry ih =>
    rw [List.mem_append, not_or, List.mem_singleton] at hlater
    have hstill := ih hlater.1
    rw [← List.append_assoc, unsharded_snoc]
    cases entry with
    | step action => exact hstill
    | reduceGrad other => exact hstill
    | unshard other => exact Finset.mem_insert_of_mem hstill
    | reshard other =>
      refine Finset.mem_erase.2 ⟨fun heq => hlater.2 ?_, hstill⟩
      rw [heq]

theorem mem_leaves_of_entry {entries : List FsdpAction} {entry : FsdpAction} {x : LeafStep}
    (hentry : entry ∈ entries) (hx : x ∈ entry.leaves) :
    x ∈ Order.leaves (entries.filterMap FsdpAction.action?) := by
  cases entry with
  | step action =>
    have hmem : action ∈ entries.filterMap FsdpAction.action? :=
      List.mem_filterMap.2 ⟨_, hentry, rfl⟩
    obtain ⟨before, after, heq⟩ := List.append_of_mem hmem
    rw [heq, Order.leaves_append, Order.leaves_cons]
    exact List.mem_append_right _ (List.mem_append_left _ hx)
  | _ => cases hx

/-- The pass adds the reductions of managed stages and leaves everything else as it is. -/
theorem addFsdpReduceGrad_adds {actions : List FsdpAction}
    (hactions : ∀ stage, .reduceGrad stage ∉ actions) :
    (addFsdpReduceGrad actions managed M).filter (!·.isReduceGrad) = actions ∧
      ∀ stage, .reduceGrad stage ∈ addFsdpReduceGrad actions managed M → stage ∈ managed := by
  have hplain : ∀ e ∈ actions, e.isReduceGrad = false := by
    intro e he
    cases e with
    | reduceGrad stage => exact absurd he (hactions stage)
    | _ => rfl
  rw [addFsdpReduceGrad]
  split_ifs with hmanaged
  · exact ⟨List.filter_eq_self.2 fun e he => by simp [hplain e he],
      fun stage hstage => absurd hstage (hactions stage)⟩
  · constructor
    · have hone : ∀ e ∈ actions, (e :: (reducedStageIndices managed M e).map
          FsdpAction.reduceGrad).filter (!·.isReduceGrad) = [e] := by
        intro e he
        rw [List.filter_cons_of_pos (by simp [hplain e he]), List.filter_map]
        simp [FsdpAction.isReduceGrad]
      rw [List.filter_flatMap, List.flatMap_congr hone, List.flatMap_singleton']
    · intro stage hstage
      obtain ⟨e, he, hmem⟩ := List.mem_flatMap.1 hstage
      rcases List.mem_cons.1 hmem with rfl | hmem
      · exact absurd he (hactions stage)
      · obtain ⟨other, hother, heq⟩ := List.mem_map.1 hmem
        obtain rfl := FsdpAction.reduceGrad.inj heq
        exact (((reducedStageIndices_spec e).2 other).1 hother).1

/-- Where the last backward of the stage stands among the actions, it is reduced once. -/
theorem reducedOnce_of_lastBackward {order : Order} {maxActiveStages : ℕ} {out : List FsdpAction}
    (hout : Sharded order managed maxActiveStages out) (hs : s ∈ managed)
    (hlast : LastBackward M s order) : ReducedOnce s (addFsdpReduceGrad out managed M) := by
  obtain ⟨o₁, action, o₂, rfl, ⟨x, hx, hxlast⟩, ho₁, ho₂⟩ := hlast
  obtain ⟨before, rest, rfl, hbefore, hrest⟩ := List.filterMap_eq_append_iff.1 hout.kept
  obtain ⟨skipped, entry, after, rfl, hskipped, hentry, hafter⟩ :=
    List.filterMap_eq_cons_iff.1 hrest
  obtain rfl : entry = .step action := by
    cases entry with
    | step other => rw [Option.some.inj hentry]
    | _ => cases hentry
  obtain ⟨hnodup, hmem⟩ := @reducedStageIndices_spec managed M (.step action)
  obtain ⟨r₁, r₂, hr⟩ := List.append_of_mem ((hmem s).2 ⟨hs, x, hx, hxlast⟩)
  have hback : ∀ e ∈ after, ∀ y ∈ e.leaves, ¬ y.IsBackward s := fun e he y hy =>
    ho₂ y (hafter ▸ mem_leaves_of_entry he hy)
  have hfirst : ∀ e ∈ before ++ skipped, ∀ y ∈ e.leaves, ¬ y.IsLast M s := by
    intro e he y hy
    rcases List.mem_append.1 he with he | he
    · exact ho₁ y (hbefore ▸ mem_leaves_of_entry he hy)
    · have hnone := mem_leaves_of_entry he hy
      rw [List.filterMap_eq_nil_iff.2 hskipped] at hnone
      cases hnone
  -- what an entry that is not the last one turns into
  have hround : ∀ e ∈ before ++ skipped ++ after, (∀ y ∈ e.leaves, ¬ y.IsLast M s) →
      .reduceGrad s ∉ e :: (reducedStageIndices managed M e).map FsdpAction.reduceGrad := by
    intro e he hlast hreduce
    rcases List.mem_cons.1 hreduce with heq | hreduce
    · refine hout.unreduced s (heq ▸ ?_)
      rw [← List.append_assoc]
      rcases List.mem_append.1 he with he | he
      · exact List.mem_append_left _ he
      · exact List.mem_append_right _ (List.mem_cons_of_mem _ he)
    · obtain ⟨stage, hstage, heq⟩ := List.mem_map.1 hreduce
      obtain rfl := FsdpAction.reduceGrad.inj heq
      obtain ⟨-, y, hy, hylast⟩ := ((reducedStageIndices_spec e).2 stage).1 hstage
      exact hlast y hy hylast
  rw [hr, List.nodup_append] at hnodup
  have hreshard : .reshard s ∈ after := by
    have hcovered := hout.covered (before ++ skipped) action after (List.append_assoc _ _ _).symm
      x hx (by rcases hxlast.2.1 with h | h <;> rw [h] <;> rfl) (hxlast.1 ▸ hs)
    rw [hxlast.1] at hcovered
    by_contra hnone
    have hstill : s ∈ unsharded (before ++ skipped ++ .step action :: after) := by
      refine mem_unsharded_append hcovered fun hmem => ?_
      rcases List.mem_cons.1 hmem with heq | hmem
      · cases heq
      · exact hnone hmem
    rw [List.append_assoc, hout.closed] at hstill
    exact absurd hstill (Finset.notMem_empty _)
  rw [addFsdpReduceGrad, if_neg (Finset.ne_empty_of_mem hs), ← List.append_assoc,
    List.flatMap_append, List.flatMap_cons, hr]
  refine ⟨(before ++ skipped).flatMap (fun e => e :: (reducedStageIndices managed M e).map
      FsdpAction.reduceGrad) ++ .step action :: r₁.map .reduceGrad,
    r₂.map .reduceGrad ++ after.flatMap fun e => e :: (reducedStageIndices managed M e).map
      FsdpAction.reduceGrad, by simp, ?_, ?_, ?_, ?_⟩
  · intro hreduce
    rcases List.mem_append.1 hreduce with hreduce | hreduce
    · obtain ⟨e, he, hmemE⟩ := List.mem_flatMap.1 hreduce
      exact hround e (List.mem_append_left _ he) (hfirst e he) hmemE
    · rcases List.mem_cons.1 hreduce with heq | hreduce
      · cases heq
      · obtain ⟨stage, hstage, heq⟩ := List.mem_map.1 hreduce
        obtain rfl := FsdpAction.reduceGrad.inj heq
        exact hnodup.2.2 stage hstage stage List.mem_cons_self rfl
  · intro hreduce
    rcases List.mem_append.1 hreduce with hreduce | hreduce
    · obtain ⟨stage, hstage, heq⟩ := List.mem_map.1 hreduce
      obtain rfl := FsdpAction.reduceGrad.inj heq
      exact (List.nodup_cons.1 hnodup.2.1).1 hstage
    · obtain ⟨e, he, hmemE⟩ := List.mem_flatMap.1 hreduce
      exact hround e (List.mem_append_right _ he)
        (fun y hy hylast => hback e he y hy hylast.isBackward) hmemE
  · intro entry hentry y hy
    rcases List.mem_append.1 hentry with hentry | hentry
    · obtain ⟨stage, -, rfl⟩ := List.mem_map.1 hentry
      cases hy
    · obtain ⟨e, he, hmemE⟩ := List.mem_flatMap.1 hentry
      rcases List.mem_cons.1 hmemE with rfl | hmemE
      · exact hback entry he y hy
      · obtain ⟨stage, -, rfl⟩ := List.mem_map.1 hmemE
        cases hy
  · exact List.mem_append_right _ (List.mem_flatMap.2 ⟨_, hreshard, List.mem_cons_self⟩)

end Reduce

/-! ### Splitting the backwards of the composites -/

section Split

variable {M s : ℕ} {order : Order}

theorem lastBackward_append_iff {run rest : Order}
    (hrun : ∀ x ∈ Order.leaves run, ¬ x.IsLast M s) :
    LastBackward M s (run ++ rest) ↔ LastBackward M s rest := by
  induction run with
  | nil => rfl
  | cons action run ih =>
    rw [Order.leaves_cons] at hrun
    have haction : ∀ x ∈ Order.leaves [action], ¬ x.IsLast M s := fun x hx =>
      hrun x (List.mem_append_left _ hx)
    rw [List.cons_append, lastBackward_cons_iff,
      ih fun x hx => hrun x (List.mem_append_right _ hx)]
    constructor
    · rintro (⟨⟨x, hx, hlast⟩, -⟩ | ⟨-, hrest⟩)
      · exact absurd hlast (haction x hx)
      · exact hrest
    · exact fun hrest => .inr ⟨haction, hrest⟩

/-- Transfers compute no gradient. -/
theorem notBackward_takeWhile (order : Order) :
    ∀ x ∈ Order.leaves (order.takeWhile isP2PStep), ¬ x.IsBackward s := by
  intro x hx hback
  obtain ⟨entry, hentry, hx⟩ := List.mem_flatMap.1 hx
  have hp2p := List.mem_takeWhile_imp hentry
  rcases entry with _ | (step | ⟨type, first, second⟩)
  · cases hp2p
  · obtain rfl := List.mem_singleton.1 hx
    rcases hback.2 with htype | htype | htype <;> simp [isP2PStep, htype, MetaStepType.isP2P] at hp2p
  · cases hp2p

theorem notBackward_splitOverlapDxdw (h : ∀ x ∈ order.leaves, ¬ x.IsBackward s) :
    ∀ x ∈ (splitOverlapDxdw order).leaves, ¬ x.IsBackward s := by
  induction order using splitOverlapDxdw.induct with
  | case1 => simp [splitOverlapDxdw]
  | case2 bwd fwd order hkeep ih =>
    rw [splitOverlapDxdw, if_pos hkeep, Order.leaves_cons]
    rw [Order.leaves_cons, List.forall_mem_append] at h
    exact List.forall_mem_append.2 ⟨h.1, ih h.2⟩
  | case3 bwd fwd order hsplit ih =>
    have hbwd : bwd.type = .bwd := not_not.1 fun hne => hsplit (.inl hne)
    rw [Order.leaves_cons, List.forall_mem_append] at h
    have hother : bwd.stageIndex ≠ s := fun hs => h.1 bwd (by simp [MetaStep.leaves])
      ⟨hs, .inl hbwd⟩
    have hrest : ∀ x ∈ Order.leaves (order.dropWhile isP2PStep), ¬ x.IsBackward s := by
      intro x hx
      apply h.2
      rw [← List.takeWhile_append_dropWhile (p := isP2PStep) (l := order), Order.leaves_append]
      exact List.mem_append_right _ hx
    rw [splitOverlapDxdw, if_neg hsplit, List.cons_append, Order.leaves_cons, Order.leaves_append,
      Order.leaves_cons (some (.leaf _))]
    simp only [List.forall_mem_append]
    refine ⟨?_, notBackward_takeWhile order, ?_, ih hrest⟩
    · intro x hx
      simp only [Order.leaves_some, MetaStep.leaves, Order.leaves_nil, List.append_nil,
        List.mem_cons, List.not_mem_nil, or_false] at hx
      rcases hx with rfl | rfl
      · exact fun hback => hother hback.1
      · exact h.1 x (by simp [MetaStep.leaves])
    · intro x hx
      obtain rfl := List.mem_singleton.1 hx
      exact fun hback => hother hback.1
  | case4 step order hne ih =>
    rw [splitOverlapDxdw, Order.leaves_cons]
    · rw [Order.leaves_cons, List.forall_mem_append] at h
      exact List.forall_mem_append.2 ⟨h.1, ih h.2⟩
    · exact hne

/-- Splitting the backwards of the composites keeps the last backward: it becomes the gradient of
the weights behind the transfers. -/
theorem LastBackward.splitOverlapDxdw (h : LastBackward M s order)
    (hpairs : ∀ type first second, some (.overlap type first second) ∈ order →
      second.type = .fwd) : LastBackward M s (splitOverlapDxdw order) := by
  induction order using splitOverlapDxdw.induct with
  | case1 =>
    obtain ⟨before, action, after, heq, -⟩ := h
    simp at heq
  | case2 bwd fwd order hkeep ih =>
    rw [Pipeline.splitOverlapDxdw, if_pos hkeep, lastBackward_cons_iff]
    rcases lastBackward_cons_iff.1 h with ⟨hlast, hrest⟩ | ⟨hnone, hrest⟩
    · exact .inl ⟨hlast, notBackward_splitOverlapDxdw hrest⟩
    · exact .inr ⟨hnone, ih hrest fun type first second hmem =>
        hpairs type first second (List.mem_cons_of_mem _ hmem)⟩
  | case3 bwd fwd order hsplit ih =>
    have hbwd : bwd.type = .bwd := not_not.1 fun hne => hsplit (.inl hne)
    have hfwd : fwd.type = .fwd := hpairs _ _ _ List.mem_cons_self
    have hparts := List.takeWhile_append_dropWhile (p := isP2PStep) (l := order)
    have hrun : ∀ x ∈ Order.leaves (order.takeWhile isP2PStep), ¬ x.IsLast M s := fun x hx hlast =>
      notBackward_takeWhile order x hx hlast.isBackward
    have hpair : ∀ x ∈ Order.leaves [some (.overlap .overlapBF
        ⟨bwd.microIndex, .bwdInput, bwd.stageIndex⟩ fwd)], ¬ x.IsLast M s := by
      intro x hx hlast
      simp only [Order.leaves_some, MetaStep.leaves, Order.leaves_nil, List.append_nil,
        List.mem_cons, List.not_mem_nil, or_false] at hx
      rcases hx with rfl | rfl
      · rcases hlast.2.1 with htype | htype <;> cases htype
      · rcases hlast.2.1 with htype | htype <;> rw [hfwd] at htype <;> cases htype
    rw [Pipeline.splitOverlapDxdw, if_neg hsplit, List.cons_append, lastBackward_cons_iff,
      lastBackward_append_iff hrun, lastBackward_cons_iff]
    refine .inr ⟨hpair, ?_⟩
    rcases lastBackward_cons_iff.1 h with ⟨⟨x, hx, hlast⟩, hrest⟩ | ⟨hnone, hrest⟩
    · simp only [Order.leaves_some, MetaStep.leaves, Order.leaves_nil, List.append_nil,
        List.mem_cons, List.not_mem_nil, or_false] at hx
      rcases hx with rfl | rfl
      · refine .inl ⟨⟨_, List.mem_singleton_self _, hlast.1, .inr rfl, hlast.2.2⟩,
          notBackward_splitOverlapDxdw fun y hy => hrest y ?_⟩
        rw [← hparts, Order.leaves_append]
        exact List.mem_append_right _ hy
      · rcases hlast.2.1 with htype | htype <;> rw [hfwd] at htype <;> cases htype
    · refine .inr ⟨?_, ih ?_ fun type first second hmem => hpairs type first second
        (List.mem_cons_of_mem _ (List.dropWhile_suffix isP2PStep |>.subset hmem))⟩
      · intro x hx hlast
        obtain rfl := List.mem_singleton.1 hx
        exact hnone bwd (by simp [MetaStep.leaves]) ⟨hlast.1, .inl hbwd, hlast.2.2⟩
      · rwa [← hparts, lastBackward_append_iff hrun] at hrest
  | case4 step order hne ih =>
    have hpairs' : ∀ type first second, some (.overlap type first second) ∈ order →
        second.type = .fwd := fun type first second hmem =>
      hpairs type first second (List.mem_cons_of_mem _ hmem)
    rw [Pipeline.splitOverlapDxdw, lastBackward_cons_iff]
    · rcases lastBackward_cons_iff.1 h with ⟨hlast, hrest⟩ | ⟨hnone, hrest⟩
      · exact .inl ⟨hlast, notBackward_splitOverlapDxdw hrest⟩
      · exact .inr ⟨hnone, ih hrest hpairs'⟩
    · exact hne

end Split

/-! ### The three schedules -/

/-- The steps of `ScheduleGPipe` for the forward of a micro-batch, and for its backward. -/
def gPipeForward (realStageNum stageIndex mbIndex : ℕ) : List LeafStep :=
  [⟨mbIndex, .dataLoad, stageIndex⟩] ++
  (if stageIndex ≠ 0 then
    [⟨mbIndex, .dataRecv, stageIndex⟩, ⟨mbIndex, .fwdRecv, stageIndex⟩] else []) ++
  [⟨mbIndex, .fwd, stageIndex⟩] ++
  if stageIndex ≠ realStageNum - 1 then
    [⟨mbIndex, .dataSend, stageIndex⟩, ⟨mbIndex, .fwdSend, stageIndex⟩] else []

def gPipeBackward (realStageNum stageIndex mbIndex : ℕ) : List LeafStep :=
  (if stageIndex ≠ realStageNum - 1 then [⟨mbIndex, .bwdRecv, stageIndex⟩] else []) ++
  [⟨mbIndex, .bwd, stageIndex⟩] ++
  if stageIndex ≠ 0 then [⟨mbIndex, .bwdSend, stageIndex⟩] else []

/-- `ScheduleGPipe.construct_exec_order` -/
def gPipeExecOrder (realStageNum microBatchNum stageIndex : ℕ) : Order :=
  ((List.range microBatchNum).flatMap (gPipeForward realStageNum stageIndex) ++
    (List.range microBatchNum).flatMap (gPipeBackward realStageNum stageIndex)).map
      fun step => some (.leaf step)

theorem filter_gPipe (R M s : ℕ) : (gPipeExecOrder R M s).leaves.filter (·.IsBackward s) =
    (List.range M).map fun m => ⟨m, .bwd, s⟩ := by
  have hforward : ∀ m, (gPipeForward R s m).filter (·.IsBackward s) = [] := by
    intro m
    unfold gPipeForward
    split_ifs <;> simp [LeafStep.IsBackward]
  have hbackward : ∀ m, (gPipeBackward R s m).filter (·.IsBackward s) = [⟨m, .bwd, s⟩] := by
    intro m
    unfold gPipeBackward
    split_ifs <;> simp [LeafStep.IsBackward]
  rw [gPipeExecOrder, Order.leaves_map_leaf, List.filter_append, List.filter_flatMap,
    List.filter_flatMap]
  simp only [hforward, hbackward, List.map_eq_flatMap]
  simp

theorem lastBackward_gPipe (R : ℕ) {M s : ℕ} (hM : 0 < M) :
    LastBackward M s (gPipeExecOrder R M s) := by
  have hfilter := filter_gPipe R M s
  have hmem : ∀ x ∈ (gPipeExecOrder R M s).leaves, x.IsBackward s → ∃ m < M, x = ⟨m, .bwd, s⟩ := by
    intro x hx hback
    have hx' : x ∈ (gPipeExecOrder R M s).leaves.filter (·.IsBackward s) :=
      List.mem_filter.2 ⟨hx, by simpa using hback⟩
    rw [hfilter] at hx'
    obtain ⟨m, hm, rfl⟩ := List.mem_map.1 hx'
    exact ⟨m, List.mem_range.1 hm, rfl⟩
  refine lastBackward_of_sorted ?_ hM ?_ ?_
  · have hlast : (⟨M - 1, .bwd, s⟩ : LeafStep) ∈
        (gPipeExecOrder R M s).leaves.filter (·.IsBackward s) := by
      rw [hfilter]
      exact List.mem_map.2 ⟨M - 1, List.mem_range.2 (by omega), rfl⟩
    exact List.mem_of_mem_filter hlast
  · intro x hx hback
    obtain ⟨m, hm, rfl⟩ := hmem x hx hback
    exact hm
  · rw [hfilter, List.pairwise_map]
    exact List.pairwise_lt_range

open Schedule1F1B in
theorem lastBackward_oneFOneB {R M s : ℕ} (hs : s < R) (hM : 0 < M) :
    LastBackward M s (constructExecOrder R M s) := by
  have hbelongs : ∀ x ∈ constructStageOrder R M s, x.IsBackward s →
      x.microIndex < M ∧ x = ⟨x.microIndex, .bwd, s⟩ := by
    rintro ⟨m, type, stage⟩ hx ⟨rfl, htype⟩
    obtain ⟨-, hm, hkind⟩ := (mem_stageOrder hs hM).1 hx
    refine ⟨hm, ?_⟩
    rcases htype with rfl | rfl | rfl
    · rfl
    · exact absurd hkind id
    · exact absurd hkind id
  refine lastBackward_of_sorted ?_ hM ?_ ?_
  · rw [leaves_constructExecOrder, mem_stageOrder hs hM]
    exact ⟨rfl, Nat.sub_lt hM Nat.one_pos, trivial⟩
  · rw [leaves_constructExecOrder]
    exact fun x hx hback => (hbelongs x hx hback).1
  · rw [leaves_constructExecOrder]
    refine ((stageOrder_sorted hs hM).filter _).imp_of_mem fun {x y} hx hy hlt => ?_
    obtain ⟨hx, hxback⟩ := List.mem_filter.1 hx
    obtain ⟨hy, hyback⟩ := List.mem_filter.1 hy
    rw [(hbelongs x hx (by simpa using hxback)).2, (hbelongs y hy (by simpa using hyback)).2] at hlt
    simp only [time, bwdTime] at hlt
    omega

/-! ### The interleaved schedule -/

section Interleaved

variable {scheduler : ℕ → Order} {N R rank : ℕ}

/-- The finished order has forwards and backwards, loads and transfers. -/
theorem type_insertComms (hc : Computes scheduler R) (h : rank < R) {x : LeafStep}
    (hx : x ∈ (insertComms scheduler N R .loop rank).leaves) :
    x.type ≠ .bwdInput ∧ x.type ≠ .bwdWeight := by
  rw [insertComms_eq_columns h, Order.leaves_flatMap] at hx
  obtain ⟨t, -, hx⟩ := List.mem_flatMap.1 hx
  rw [column, Order.leaves_append, Order.leaves_map_leaf] at hx
  rcases List.mem_append.1 hx with hx | hx
  · rcases mem_leaves_insertDataload hx with hload | hx
    · rw [hload]
      exact ⟨by decide, by decide⟩
    · cases hitem : (expandOverlapSlots scheduler rank)[t]? with
      | none =>
        rw [hitem] at hx
        cases hx
      | some item =>
        rw [hitem] at hx
        have hleaf := leaves_emit_of_mem (List.mem_of_getElem? hitem) x hx
        rcases (hc rank h x hleaf).1 with htype | htype <;> rw [htype] <;>
          exact ⟨by decide, by decide⟩
  · obtain ⟨r, -, step, -, hx⟩ := mem_commsAt.1 hx
    unfold commsForStep at hx
    split at hx
    · cases hp : fwdPeer .loop N R step.stageIndex with
      | none => simp [hp] at hx
      | some peer =>
        simp only [hp, List.mem_cons, List.not_mem_nil, or_false, Prod.mk.injEq] at hx
        rcases hx with ⟨-, rfl⟩ | ⟨-, rfl⟩ | ⟨-, rfl⟩ | ⟨-, rfl⟩ <;> simp
    · cases hp : bwdPeer .loop N R step.stageIndex with
      | none => simp [hp] at hx
      | some peer =>
        simp only [hp, List.mem_cons, List.not_mem_nil, or_false, Prod.mk.injEq] at hx
        rcases hx with ⟨-, rfl⟩ | ⟨-, rfl⟩ <;> simp
    · cases hx

/-- The composites of the finished order are those of the schedule. -/
theorem overlap_insertComms (h : rank < R) {type : OverlapType} {first second : LeafStep}
    (hmem : some (.overlap type first second) ∈ insertComms scheduler N R .loop rank) :
    some (.overlap type first second) ∈ scheduler rank := by
  rw [insertComms_eq_columns h] at hmem
  obtain ⟨t, -, hmem⟩ := List.mem_flatMap.1 hmem
  rcases List.mem_append.1 hmem with hmem | hmem
  · rcases mem_insertDataload hmem with hmem | ⟨y, -, heq⟩
    · cases hitem : (expandOverlapSlots scheduler rank)[t]? with
      | none =>
        rw [hitem] at hmem
        cases hmem
      | some item =>
        rw [hitem] at hmem
        obtain ⟨entry, hentry, hitem⟩ := List.mem_flatMap.1 (List.mem_of_getElem? hitem)
        rcases entry with _ | (step | ⟨type', first', second'⟩)
        · obtain rfl := List.mem_singleton.1 hitem
          cases List.mem_singleton.1 hmem
        · obtain rfl := List.mem_singleton.1 hitem
          cases List.mem_singleton.1 hmem
        · rcases List.mem_pair.1 hitem with rfl | rfl
          · rw [List.mem_singleton.1 hmem]
            exact hentry
          · cases hmem
    · cases heq
  · obtain ⟨y, -, heq⟩ := List.mem_map.1 hmem
    cases heq

namespace ScheduleInterleaved1F1B

variable {c : ScheduleInterleaved1F1B} {i : ℕ}

theorem overlap_constructStageExecOrder {type : OverlapType} {first second : LeafStep}
    (hmem : some (.overlap type first second) ∈ c.constructStageExecOrder i) :
    second.type = .fwd := by
  rw [constructStageExecOrder_eq] at hmem
  simp only [List.mem_append, List.mem_flatMap] at hmem
  rcases hmem with ((((hmem | ⟨k, -, hmem⟩) | hmem) | hmem) | hmem) | ⟨j, -, hmem⟩
  · cases List.eq_of_mem_replicate hmem
  · rcases List.mem_cons.1 hmem with heq | hmem
    · cases heq
    · cases List.eq_of_mem_replicate hmem
  · cases List.eq_of_mem_replicate hmem
  · cases List.eq_of_mem_replicate hmem
  · rw [steady] at hmem
    split_ifs at hmem
    · rw [overlapBlocks] at hmem
      rcases List.mem_append.1 hmem with hmem | hmem
      · cases hn : c.steadyOps i with
        | zero =>
          rw [hn] at hmem
          cases hmem
        | succ m =>
          rw [hn, pairIntoOverlapBF_range] at hmem
          rcases List.mem_append.1 hmem with hmem | hmem
          · rcases List.mem_cons.1 hmem with heq | hmem
            · cases heq
            · obtain ⟨j, -, heq⟩ := List.mem_map.1 hmem
              cases heq
              rfl
          · cases List.mem_singleton.1 hmem
      · cases List.eq_of_mem_replicate hmem
    · obtain ⟨j, -, hmem⟩ := List.mem_flatMap.1 hmem
      rcases List.mem_cons.1 hmem with heq | hmem
      · cases heq
      · rcases List.mem_cons.1 hmem with heq | hmem
        · cases heq
        · cases List.eq_of_mem_replicate hmem
  · rcases List.mem_cons.1 hmem with heq | hmem
    · cases heq
    · rcases List.mem_cons.1 hmem with heq | hmem
      · cases heq
      · cases List.eq_of_mem_replicate hmem

/-- The backwards of a rank, in the order it runs them. -/
theorem filter_bwd (c : ScheduleInterleaved1F1B) (i : ℕ) :
    (c.constructStageExecOrder i).leaves.filter (fun x => x.type = .bwd) =
      (List.range (c.nLocalStages * c.microBatchNum)).map (c.bwdStep i) := by
  have htotal := c.warmupOps_add_steadyOps i
  have hb := map_range_add (c.bwdStep i) (c.steadyOps i) (c.warmupOps i)
  rw [Nat.add_comm, htotal] at hb
  have hwarmup : ((List.range (c.warmupOps i)).map (c.fwdStep i)).filter
      (fun x => x.type = .bwd) = [] := by
    rw [List.filter_eq_nil_iff]
    intro x hx
    obtain ⟨k, -, rfl⟩ := List.mem_map.1 hx
    simp [fwdStep]
  have hsteady : ((List.range (c.steadyOps i)).flatMap fun j =>
      [c.fwdStep i (c.warmupOps i + j), c.bwdStep i j]).filter (fun x => x.type = .bwd) =
      (List.range (c.steadyOps i)).map (c.bwdStep i) := by
    rw [List.filter_flatMap, List.map_eq_flatMap]
    refine List.flatMap_congr fun j _ => ?_
    simp [fwdStep, bwdStep]
  have hcooldown : ((List.range (c.warmupOps i)).map fun j => c.bwdStep i
      (c.steadyOps i + j)).filter (fun x => x.type = .bwd) =
      (List.range (c.warmupOps i)).map fun j => c.bwdStep i (c.steadyOps i + j) := by
    rw [List.filter_eq_self]
    intro x hx
    obtain ⟨j, -, rfl⟩ := List.mem_map.1 hx
    simp [bwdStep]
  rw [leaves_constructStageExecOrder, List.filter_append, List.filter_append, hwarmup, hsteady,
    hcooldown, List.nil_append, hb]

/-- The counter of a stage goes up with its backwards. -/
theorem bwdStep_lt {j j' : ℕ} (h : j < j')
    (hstage : (c.bwdStep i j).stageIndex = (c.bwdStep i j').stageIndex) :
    (c.bwdStep i j).microIndex < (c.bwdStep i j').microIndex := by
  have hbump := congrFun (tally_succ (c.backwardStageIndex · i) j) (c.backwardStageIndex j i)
  have hmono : tally (c.backwardStageIndex · i) (j + 1) (c.backwardStageIndex j i) ≤
      tally (c.backwardStageIndex · i) j' (c.backwardStageIndex j i) :=
    (List.range_sublist.2 h).countP_le
  have hone : tally (c.backwardStageIndex · i) (j + 1) (c.backwardStageIndex j i) =
      tally (c.backwardStageIndex · i) j (c.backwardStageIndex j i) + 1 := by
    rw [hbump]
    simp [Counter.bump]
  simp only [bwdStep] at hstage ⊢
  rw [← hstage]
  omega

theorem filter_backward (c : ScheduleInterleaved1F1B) (s : ℕ) (hi : i < c.realStageNum) :
    (c.withTransfers i).leaves.filter (·.IsBackward s) =
      ((List.range (c.nLocalStages * c.microBatchNum)).map (c.bwdStep i)).filter
        (·.IsBackward s) := by
  have hcompute := filter_leaves_insertComms (N := c.nLocalStages * c.realStageNum) c.computes hi
  rw [← filter_bwd, ← hcompute, ← withTransfers, List.filter_filter, List.filter_filter]
  refine List.filter_congr fun x hx => ?_
  obtain ⟨hinput, hweight⟩ := type_insertComms c.computes hi hx
  by_cases hback : x.IsBackward s
  · have htype : x.type = .bwd := by
      rcases hback.2 with htype | htype | htype
      · exact htype
      · exact absurd htype hinput
      · exact absurd htype hweight
    simp [hback, htype, LeafStep.IsCompute]
  · simp [hback]

theorem lastBackward_withTransfers (hc : c.Valid) {s : ℕ} (hi : i < c.realStageNum)
    (hs : s % c.realStageNum = i) (hlocal : s < c.nLocalStages * c.realStageNum) :
    LastBackward c.microBatchNum s (c.withTransfers i) := by
  have hfilter := filter_backward c s hi
  refine lastBackward_of_sorted ?_ hc.microBatchNum_pos ?_ ?_
  · obtain ⟨ρ, hρ, p, hp, hM⟩ := exists_round hc.realStageNum_pos
      (Nat.sub_lt hc.microBatchNum_pos Nat.one_pos)
    have hdiv : s / c.realStageNum < c.nLocalStages :=
      Nat.div_lt_of_lt_mul (by rwa [Nat.mul_comm])
    have hl : c.nLocalStages - 1 - s / c.realStageNum < c.nLocalStages :=
      (Nat.sub_le _ _).trans_lt (Nat.sub_lt hc.nLocalStages_pos Nat.one_pos)
    have hstep := bwdStep_opAt hc i hρ hl hp
    have hback : c.nLocalStages - 1 - (c.nLocalStages - 1 - s / c.realStageNum) =
        s / c.realStageNum := Nat.sub_sub_self (Nat.le_sub_one_of_lt hdiv)
    rw [hback, ← hs, Nat.div_add_mod', ← hM, hs] at hstep
    have hmem : (⟨c.microBatchNum - 1, .bwd, s⟩ : LeafStep) ∈
        (c.withTransfers i).leaves.filter (·.IsBackward s) := by
      rw [hfilter, List.mem_filter, ← hstep]
      refine ⟨List.mem_map.2 ⟨_, List.mem_range.2
        (opAt_lt_total hc.realStageNum_pos hρ hl hp), rfl⟩, ?_⟩
      rw [hstep]
      exact decide_eq_true ⟨rfl, .inl rfl⟩
    exact List.mem_of_mem_filter hmem
  · intro x hx hback
    have hx' : x ∈ (c.withTransfers i).leaves.filter (·.IsBackward s) :=
      List.mem_filter.2 ⟨hx, decide_eq_true hback⟩
    rw [hfilter] at hx'
    obtain ⟨j, hj, rfl⟩ := List.mem_map.1 (List.mem_filter.1 hx').1
    rw [bwdStep_eq hc.realStageNum_pos i (List.mem_range.1 hj)]
    exact microIndex_lt hc.realStageNum_pos (List.mem_range.1 hj)
  · rw [hfilter, List.pairwise_filter, List.pairwise_map]
    refine List.pairwise_lt_range.imp fun {j j'} hlt hj hj' => ?_
    exact bwdStep_lt hlt ((of_decide_eq_true hj).1.trans (of_decide_eq_true hj').1.symm)

theorem lastBackward_interleaved (hc : c.Valid) {s : ℕ} (hi : i < c.realStageNum)
    (hs : s % c.realStageNum = i) (hlocal : s < c.nLocalStages * c.realStageNum) :
    LastBackward c.microBatchNum s (c.constructExecOrder i) := by
  have hlast := lastBackward_withTransfers hc hi hs hlocal
  rw [constructExecOrder]
  split_ifs
  · exact hlast.splitOverlapDxdw fun type first second hmem =>
      overlap_constructStageExecOrder (overlap_insertComms hi hmem)
  · exact hlast

end ScheduleInterleaved1F1B

end Interleaved

/-! ### Both passes -/

/-- The order of a rank in one of the three schedules, and the stages of that rank. -/
inductive IsScheduleOrder : ℕ → Order → Finset ℕ → Prop
  | gPipe {realStageNum microBatchNum stageIndex : ℕ} (h : stageIndex < realStageNum)
      (hmicro : 0 < microBatchNum) :
      IsScheduleOrder microBatchNum (gPipeExecOrder realStageNum microBatchNum stageIndex)
        {stageIndex}
  | oneFOneB {realStageNum microBatchNum stageIndex : ℕ} (h : stageIndex < realStageNum)
      (hmicro : 0 < microBatchNum) :
      IsScheduleOrder microBatchNum
        (Schedule1F1B.constructExecOrder realStageNum microBatchNum stageIndex) {stageIndex}
  | interleaved {c : ScheduleInterleaved1F1B} (hc : c.Valid) {rank : ℕ}
      (h : rank < c.realStageNum) :
      IsScheduleOrder c.microBatchNum (c.constructExecOrder rank)
        ((Finset.range (c.nLocalStages * c.realStageNum)).filter (· % c.realStageNum = rank))

theorem IsScheduleOrder.lastBackward {M s : ℕ} {order : Order} {stages : Finset ℕ}
    (h : IsScheduleOrder M order stages) (hs : s ∈ stages) : LastBackward M s order := by
  cases h with
  | gPipe h hmicro =>
    obtain rfl := Finset.mem_singleton.1 hs
    exact lastBackward_gPipe _ hmicro
  | oneFOneB h hmicro =>
    obtain rfl := Finset.mem_singleton.1 hs
    exact lastBackward_oneFOneB h hmicro
  | interleaved hc h =>
    obtain ⟨hlocal, hmod⟩ := Finset.mem_filter.1 hs
    exact ScheduleInterleaved1F1B.lastBackward_interleaved hc h hmod (Finset.mem_range.1 hlocal)

/-- The window keeps the actions and has every stage unsharded where it computes; on the order of
a schedule the second pass only adds reductions, one for every managed stage, behind its backwards
and before its last `RESHARD`. -/
theorem addFsdp_correct {managed : Finset ℕ} {maxActiveStages : ℕ} (hmax : 2 ≤ maxActiveStages) :
    (∀ actions, Sharded actions managed maxActiveStages
      (addFsdpUnshardReshard actions managed maxActiveStages)) ∧
    ∀ microBatchNum order stages, IsScheduleOrder microBatchNum order stages → managed ⊆ stages →
      let sharded := addFsdpUnshardReshard order managed maxActiveStages
      let out := addFsdpReduceGrad sharded managed microBatchNum
      out.filter (!·.isReduceGrad) = sharded ∧
        (∀ stage, .reduceGrad stage ∈ out → stage ∈ managed) ∧
        ∀ stage ∈ managed, ReducedOnce stage out := by
  constructor
  · exact fun actions => addFsdpUnshardReshard_sharded actions managed hmax
  · intro microBatchNum order stages horder hstages
    have hsharded := addFsdpUnshardReshard_sharded order managed hmax
    obtain ⟨hkept, hmanaged⟩ := addFsdpReduceGrad_adds (M := microBatchNum) hsharded.unreduced
    exact ⟨hkept, hmanaged, fun stage hstage =>
      reducedOnce_of_lastBackward hsharded hstage (horder.lastBackward (hstages hstage))⟩

/-- Two ranks with two stages each and two micro-batches, under `overlap_b_f` and the split. -/
theorem addFsdp_correct_interleaved :
    Sharded (ScheduleInterleaved1F1B.constructExecOrder ⟨2, 2, 2, false, true, true⟩ 1) {1, 3} 2
      (addFsdpUnshardReshard
        (ScheduleInterleaved1F1B.constructExecOrder ⟨2, 2, 2, false, true, true⟩ 1) {1, 3} 2) ∧
    ReducedOnce 3 (addFsdpReduceGrad (addFsdpUnshardReshard
      (ScheduleInterleaved1F1B.constructExecOrder ⟨2, 2, 2, false, true, true⟩ 1) {1, 3} 2)
        {1, 3} 2) :=
  ⟨(addFsdp_correct (le_refl 2)).1 _,
    ((addFsdp_correct (le_refl 2)).2 _ _ _
      (.interleaved (c := ⟨2, 2, 2, false, true, true⟩) ⟨by decide, by decide, by decide⟩
        (by decide : 1 < 2)) (by decide)).2.2 3 (by decide)⟩

end HyperParallel.Pipeline

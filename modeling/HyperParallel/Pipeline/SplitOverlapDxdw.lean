import HyperParallel.Pipeline.MetaStep
import Mathlib.Tactic.Common

/-!
# `split_overlap_dxdw`

The backward of an `OVERLAP_B_F` step is split: its input gradient stays in the composite, its
weight gradient runs after the transfers that follow.

* `splitOverlapDxdw`: the pass as the source writes it, on the order of one rank;
* `orderComms_splitOverlapDxdw`: the pass moves local work only;
* `unsplit_splitOverlapDxdw`, `bwdInput_precedes`: the steps stay in order, each weight gradient
  behind its input gradient.
-/

namespace HyperParallel.Pipeline

open Rendezvous

/-- `_P2P_STEP_TYPES`. -/
def MetaStepType.isP2P : MetaStepType → Bool
  | .fwdSend | .fwdRecv | .bwdSend | .bwdRecv => true
  | _ => false

/-- The entry is a plain P2P step. -/
def isP2PStep : Option MetaStep → Bool
  | some (.leaf step) => step.type.isP2P
  | _ => false

/-- `split_overlap_dxdw` on the order of one rank; `_p2p_run_after` is the run of P2P steps that
follows the composite. -/
def splitOverlapDxdw : Order → Order
  | [] => []
  | some (.overlap .overlapBF bwd fwd) :: order =>
      if bwd.type ≠ .bwd ∨ bwd.stageIndex = 0 then
        some (.overlap .overlapBF bwd fwd) :: splitOverlapDxdw order
      else
        some (.overlap .overlapBF ⟨bwd.microIndex, .bwdInput, bwd.stageIndex⟩ fwd) ::
          order.takeWhile isP2PStep ++
          some (.leaf ⟨bwd.microIndex, .bwdWeight, bwd.stageIndex⟩) ::
          splitOverlapDxdw (order.dropWhile isP2PStep)
  | step :: order => step :: splitOverlapDxdw order
termination_by order => order.length
decreasing_by
  all_goals simp only [List.length_cons]
  · omega
  · have := (List.dropWhile_suffix (l := order) isP2PStep).length_le
    omega
  · omega

section Comms

variable {R : ℕ} (di : Bool)

/-- The communications of an order. -/
def orderComms (R : ℕ) (di : Bool) (order : Order) : List (Op ℕ Message LeafStep) :=
  comms (order.leaves.map (LeafStep.toOp R di))

theorem orderComms_append (o o' : Order) :
    orderComms R di (o ++ o') = orderComms R di o ++ orderComms R di o' := by
  simp [orderComms, comms]

theorem orderComms_cons (x : Option MetaStep) (o : Order) :
    orderComms R di (x :: o) = orderComms R di [x] ++ orderComms R di o :=
  orderComms_append di [x] o

/-- The pass moves local work only. -/
theorem orderComms_splitOverlapDxdw (order : Order) :
    orderComms R di (splitOverlapDxdw order) = orderComms R di order := by
  induction order using splitOverlapDxdw.induct with
  | case1 => rw [splitOverlapDxdw]
  | case2 bwd fwd order h ih =>
    rw [splitOverlapDxdw, if_pos h, orderComms_cons, ih, ← orderComms_cons]
  | case3 bwd fwd order h ih =>
    have hbwd : bwd.type = .bwd := by
      by_contra hne
      exact h (Or.inl hne)
    have hpair : orderComms R di
        [some (.overlap .overlapBF ⟨bwd.microIndex, .bwdInput, bwd.stageIndex⟩ fwd)] =
        orderComms R di [some (.overlap .overlapBF bwd fwd)] := by
      simp [orderComms, MetaStep.leaves, LeafStep.toOp, comms, hbwd, List.filter_cons]
    have hweight : orderComms R di
        [some (.leaf ⟨bwd.microIndex, .bwdWeight, bwd.stageIndex⟩)] = [] := by
      simp [orderComms, MetaStep.leaves, LeafStep.toOp, comms]
    rw [splitOverlapDxdw, if_neg h, List.cons_append, orderComms_cons, orderComms_append,
      orderComms_cons di (some (.leaf _)), ih, hweight, hpair, List.nil_append,
      ← orderComms_append, List.takeWhile_append_dropWhile, ← orderComms_cons]
  | case4 step order hne ih =>
    rw [splitOverlapDxdw, orderComms_cons, ih, ← orderComms_cons]
    exact hne

end Comms

/-! ### What the pass does to the steps -/

/-- The step of the given order that a step of the split order stands for. -/
def LeafStep.unsplit (step : LeafStep) : Option LeafStep :=
  match step.type with
  | .bwdInput => some ⟨step.microIndex, .bwd, step.stageIndex⟩
  | .bwdWeight => none
  | _ => some step

/-- An order as `add_send_recv` leaves it: no backward is split. -/
def Whole (l : List LeafStep) : Prop := ∀ x ∈ l, x.type ≠ .bwdInput ∧ x.type ≠ .bwdWeight

theorem LeafStep.unsplit_of_whole {x : LeafStep} (h : x.type ≠ .bwdInput ∧ x.type ≠ .bwdWeight) :
    x.unsplit = some x := by
  obtain ⟨micro, type, stage⟩ := x
  cases type <;> simp_all [LeafStep.unsplit]

/-- Only an input gradient stands for another step. -/
theorem LeafStep.eq_of_unsplit {x y : LeafStep} (h : x.unsplit = some y) (hy : y.type ≠ .bwd) :
    x = y := by
  obtain ⟨micro, type, stage⟩ := x
  cases type <;> simp_all [LeafStep.unsplit]
  exact absurd rfl (h ▸ hy)

theorem filterMap_unsplit {l : List LeafStep} (h : Whole l) : l.filterMap LeafStep.unsplit = l := by
  induction l with
  | nil => rfl
  | cons x l ih =>
    rw [List.filterMap_cons_some (LeafStep.unsplit_of_whole (h x List.mem_cons_self)),
      ih fun y hy => h y (List.mem_cons_of_mem _ hy)]

section Steps

variable {order : Order}

theorem Whole.of_append {l l' : List LeafStep} (h : Whole (l ++ l')) : Whole l ∧ Whole l' :=
  ⟨fun x hx => h x (List.mem_append_left _ hx), fun x hx => h x (List.mem_append_right _ hx)⟩

theorem leaves_takeWhile_dropWhile (order : Order) :
    Order.leaves (order.takeWhile isP2PStep) ++ Order.leaves (order.dropWhile isP2PStep) =
      order.leaves := by
  rw [← Order.leaves_append, List.takeWhile_append_dropWhile]

/-- Apart from the weight gradients, the pass keeps the steps and their order. -/
theorem unsplit_splitOverlapDxdw (h : Whole order.leaves) :
    (splitOverlapDxdw order).leaves.filterMap LeafStep.unsplit = order.leaves := by
  induction order using splitOverlapDxdw.induct with
  | case1 => rw [splitOverlapDxdw]; rfl
  | case2 bwd fwd order hif ih =>
    rw [Order.leaves_cons] at h
    rw [splitOverlapDxdw, if_pos hif, Order.leaves_cons, List.filterMap_append, ih h.of_append.2,
      filterMap_unsplit h.of_append.1, ← Order.leaves_cons]
  | case3 bwd fwd order hif ih =>
    have hbwd : bwd.type = .bwd := not_not.1 (not_or.1 hif).1
    rw [Order.leaves_cons, ← leaves_takeWhile_dropWhile order] at h
    obtain ⟨hpair, hrest⟩ := h.of_append
    have hfwd : fwd.unsplit = some fwd :=
      LeafStep.unsplit_of_whole (hpair fwd (by simp [MetaStep.leaves]))
    have hfirst : (Order.leaves [some (.overlap .overlapBF
        ⟨bwd.microIndex, .bwdInput, bwd.stageIndex⟩ fwd)]).filterMap LeafStep.unsplit =
          Order.leaves [some (.overlap .overlapBF bwd fwd)] := by
      have hdx : LeafStep.unsplit ⟨bwd.microIndex, .bwdInput, bwd.stageIndex⟩ = some bwd :=
        congrArg some (hbwd ▸ rfl)
      simp only [Order.leaves_some, MetaStep.leaves, Order.leaves_nil, List.append_nil,
        List.filterMap_cons_some hdx, List.filterMap_cons_some hfwd, List.filterMap_nil]
    have hweight : (Order.leaves [some (.leaf ⟨bwd.microIndex, .bwdWeight,
        bwd.stageIndex⟩)]).filterMap LeafStep.unsplit = [] := rfl
    rw [splitOverlapDxdw, if_neg hif, List.cons_append, Order.leaves_cons, List.filterMap_append, hfirst,
      Order.leaves_append, Order.leaves_cons (some (.leaf _)), List.filterMap_append,
      List.filterMap_append, hweight, List.nil_append, ih hrest.of_append.2,
      filterMap_unsplit hrest.of_append.1, leaves_takeWhile_dropWhile, ← Order.leaves_cons]
  | case4 step order hne ih =>
    rw [Order.leaves_cons] at h
    rw [splitOverlapDxdw, Order.leaves_cons, List.filterMap_append, ih h.of_append.2,
      filterMap_unsplit h.of_append.1, ← Order.leaves_cons]
    exact hne

/-- A weight gradient stands behind its input gradient, and never at the first stage. -/
theorem bwdInput_precedes (h : Whole order.leaves) (m s : ℕ) :
    Precedes (splitOverlapDxdw order).leaves ⟨m, .bwdInput, s⟩ ⟨m, .bwdWeight, s⟩ ∧
      (⟨m, .bwdWeight, 0⟩ : LeafStep) ∉ (splitOverlapDxdw order).leaves := by
  have hnot : ∀ {l : List LeafStep} {s : ℕ}, Whole l → (⟨m, .bwdWeight, s⟩ : LeafStep) ∉ l :=
    fun hl hmem => (hl _ hmem).2 rfl
  induction order using splitOverlapDxdw.induct with
  | case1 => exact ⟨precedes_of_notMem (by rw [splitOverlapDxdw]; simp),
      by rw [splitOverlapDxdw]; simp⟩
  | case2 bwd fwd order hif ih =>
    rw [Order.leaves_cons] at h
    obtain ⟨hfirst, hrest⟩ := h.of_append
    rw [splitOverlapDxdw, if_pos hif, Order.leaves_cons, List.mem_append, not_or]
    exact ⟨(precedes_of_notMem (hnot hfirst)).append (Or.inr (ih hrest).1), hnot hfirst,
      (ih hrest).2⟩
  | case3 bwd fwd order hif ih =>
    rw [Order.leaves_cons, ← leaves_takeWhile_dropWhile order] at h
    obtain ⟨hpair, hrest⟩ := h.of_append
    obtain ⟨hrun, hrest⟩ := hrest.of_append
    obtain ⟨ih1, ih2⟩ := ih hrest
    have hfwd := hpair fwd (by simp [MetaStep.leaves])
    have hdx : ∀ s, (⟨m, .bwdWeight, s⟩ : LeafStep) ∉ Order.leaves [some (.overlap .overlapBF
        ⟨bwd.microIndex, .bwdInput, bwd.stageIndex⟩ fwd)] := by
      intro s hmem
      simp only [Order.leaves_some, MetaStep.leaves, Order.leaves_nil, List.append_nil,
        List.mem_cons, List.not_mem_nil, or_false] at hmem
      rcases hmem with hmem | hmem
      · exact absurd (congrArg LeafStep.type hmem) (by simp)
      · exact hfwd.2 (hmem ▸ rfl)
    rw [splitOverlapDxdw, if_neg hif, List.cons_append, Order.leaves_cons, Order.leaves_append,
      Order.leaves_cons (some (.leaf _))]
    constructor
    · refine (precedes_of_notMem (hdx s)).append ?_
      by_cases hsame : bwd.microIndex = m ∧ bwd.stageIndex = s
      · exact Or.inl (by simp [MetaStep.leaves, hsame])
      · refine Or.inr ((precedes_of_notMem (hnot hrun)).append (Or.inr ?_))
        refine (precedes_of_notMem fun hmem => hsame ?_).append (Or.inr ih1)
        simp only [Order.leaves_some, MetaStep.leaves, Order.leaves_nil, List.append_nil,
          List.mem_singleton, LeafStep.mk.injEq, true_and] at hmem
        exact ⟨hmem.1.symm, hmem.2.symm⟩
    · simp only [List.mem_append, not_or]
      refine ⟨hdx 0, hnot hrun, fun hmem => ?_, ih2⟩
      simp only [Order.leaves_some, MetaStep.leaves, Order.leaves_nil, List.append_nil,
        List.mem_singleton, LeafStep.mk.injEq, true_and] at hmem
      exact (not_or.1 hif).2 hmem.2.symm
  | case4 step order hne ih =>
    rw [Order.leaves_cons] at h
    obtain ⟨hfirst, hrest⟩ := h.of_append
    rw [splitOverlapDxdw, Order.leaves_cons, List.mem_append, not_or]
    · exact ⟨(precedes_of_notMem (hnot hfirst)).append (Or.inr (ih hrest).1), hnot hfirst,
        (ih hrest).2⟩
    · exact hne

end Steps

end HyperParallel.Pipeline

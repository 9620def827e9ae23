import HyperParallel.Lib.Rendezvous
import Mathlib.Tactic.Common

/-!
# Meta steps of a pipeline schedule and how a rank executes them

`pipeline_parallel/utils.py` and the execution side of `pipeline_parallel/scheduler.py`: the
steps a schedule is made of, and what each of them asks of the transport when the plain
blocking point-to-point operations are used (`overlap_p2p=False`).

* `MetaStepType`, `LeafStep`, `MetaStep`, `Order`;
* `LeafStep.toOp`: the peer and the payload of a step, as `PipelineStage` addresses them;
* `transport`: the network of all ranks executing an order;
* `LeafStep.error`, `execution`: the same network with the errors of steps that come too early;
* `Precedes`: in a list, one element stands before every occurrence of another.
-/

namespace HyperParallel.Pipeline

open Rendezvous

/-- `MetaStepType` of a step without sub-steps. -/
inductive MetaStepType
  | dataLoad
  | dataSend
  | dataRecv
  | fwd
  | bwd
  | bwdInput
  | bwdWeight
  | fwdRecv
  | fwdSend
  | bwdRecv
  | bwdSend
  deriving DecidableEq, Repr

/-- The `MetaStepType` of a composite step: `OVERLAP_F_B` and `OVERLAP_B_F`. -/
inductive OverlapType
  | overlapFB
  | overlapBF
  deriving DecidableEq, Repr

/-- A `MetaStep` without sub-steps. -/
structure LeafStep where
  microIndex : ℕ
  type : MetaStepType
  stageIndex : ℕ
  deriving DecidableEq, Repr

/-- A `MetaStep`: a leaf, or a composite carrying its two sub-steps. -/
inductive MetaStep
  | leaf (step : LeafStep)
  | overlap (type : OverlapType) (first second : LeafStep)
  deriving DecidableEq, Repr

/-- The leaf steps of a step, as `iter_leaf_meta_steps` yields them. -/
def MetaStep.leaves : MetaStep → List LeafStep
  | .leaf step => [step]
  | .overlap _ first second => [first, second]

/-- `exec_order[rank]`: `none` is a bubble. -/
abbrev Order := List (Option MetaStep)

/-- The leaf steps a rank executes, in the order it executes them: bubbles are skipped and the
sub-steps of a composite run one after the other. -/
def Order.leaves (order : Order) : List LeafStep :=
  order.flatMap fun step => step.elim [] MetaStep.leaves

@[simp] theorem Order.leaves_nil : Order.leaves [] = [] := rfl

@[simp] theorem Order.leaves_append (o o' : Order) :
    Order.leaves (o ++ o') = Order.leaves o ++ Order.leaves o' := by
  simp [Order.leaves]

@[simp] theorem Order.leaves_none (o : Order) : Order.leaves (none :: o) = Order.leaves o := rfl

@[simp] theorem Order.leaves_some (step : MetaStep) (o : Order) :
    Order.leaves (some step :: o) = step.leaves ++ Order.leaves o := rfl

theorem Order.leaves_cons (entry : Option MetaStep) (order : Order) :
    Order.leaves (entry :: order) = Order.leaves [entry] ++ Order.leaves order :=
  Order.leaves_append [entry] order

/-- What a transfer carries: its kind, the stage that produced it and its micro-batch. -/
structure Message where
  type : MetaStepType
  stageIndex : ℕ
  microIndex : ℕ
  deriving DecidableEq, Repr

/-- What executing a leaf step asks of the transport.  A stage receives its forward input from
the rank of the stage before it and its gradient from the rank of the stage after it
(`src_stage`, `dst_stage`, `_global_rank`); the `DATA_*` steps do nothing unless a data
iterator is active. -/
def LeafStep.toOp (realStageNum : ℕ) (dataIterator : Bool) (step : LeafStep) :
    Op ℕ Message LeafStep :=
  let next := (step.stageIndex + 1) % realStageNum
  let prev := (step.stageIndex - 1) % realStageNum
  match step.type with
  | .fwdSend => .send next ⟨.fwdSend, step.stageIndex, step.microIndex⟩
  | .fwdRecv => .recv prev ⟨.fwdSend, step.stageIndex - 1, step.microIndex⟩
  | .bwdSend => .send prev ⟨.bwdSend, step.stageIndex, step.microIndex⟩
  | .bwdRecv => .recv next ⟨.bwdSend, step.stageIndex + 1, step.microIndex⟩
  | .dataSend =>
      if dataIterator then .send next ⟨.dataSend, step.stageIndex, step.microIndex⟩
      else .work step
  | .dataRecv =>
      if dataIterator then .recv prev ⟨.dataSend, step.stageIndex - 1, step.microIndex⟩
      else .work step
  | _ => .work step

/-- All ranks executing their orders with blocking sends and receives. -/
def transport (realStageNum : ℕ) (dataIterator : Bool) (execOrder : ℕ → Order) :
    Net ℕ Message LeafStep :=
  fun rank =>
    if rank < realStageNum then
      (execOrder rank).leaves.map (LeafStep.toOp realStageNum dataIterator)
    else []

/-- What `PipelineStage` raises when a step comes too early: `forward_one_chunk` without the
received input, a backward without the forward outputs in `fwd_cache` or without as many gradients
as outputs, `backward_weight_one_chunk` without `backward_input_one_chunk`. -/
inductive StageError
  | execOrder (microIndex : ℕ)
  | noForward (microIndex : ℕ)
  | noGradient (microIndex : ℕ)
  | dwBeforeDx (stageIndex microIndex : ℕ)
  deriving DecidableEq, Repr

/-- The error of a backward, given what the rank has executed; the last stage makes its own
gradient. -/
def LeafStep.backwardError (stageNum : ℕ) (done : List LeafStep) (step : LeafStep) :
    Option StageError :=
  if ⟨step.microIndex, .fwd, step.stageIndex⟩ ∉ done then some (.noForward step.microIndex)
  else if step.stageIndex + 1 ≠ stageNum ∧
      ⟨step.microIndex, .bwdRecv, step.stageIndex⟩ ∉ done then
    some (.noGradient step.microIndex)
  else none

/-- The error a compute step raises, given what the rank has executed: `forward_one_chunk`,
`backward_one_chunk`, `backward_input_one_chunk` and `backward_weight_one_chunk`. -/
def LeafStep.error (stageNum : ℕ) (done : List LeafStep) (step : LeafStep) : Option StageError :=
  match step.type with
  | .fwd =>
      if step.stageIndex ≠ 0 ∧ ⟨step.microIndex, .fwdRecv, step.stageIndex⟩ ∉ done then
        some (.execOrder step.microIndex)
      else none
  | .bwd => step.backwardError stageNum done
  | .bwdInput => if step.stageIndex = 0 then none else step.backwardError stageNum done
  | .bwdWeight =>
      if step.stageIndex = 0 then step.backwardError stageNum done
      else if ⟨step.microIndex, .bwdInput, step.stageIndex⟩ ∉ done then
        some (.dwBeforeDx step.stageIndex step.microIndex)
      else none
  | _ => none

/-- What a rank does at a step: its half of a transfer, or work that succeeds or raises. -/
def LeafStep.exec (stageNum realStageNum : ℕ) (dataIterator : Bool) (done : List LeafStep)
    (step : LeafStep) : Op ℕ Message (Except StageError LeafStep) :=
  match step.toOp realStageNum dataIterator with
  | .work work =>
      match step.error stageNum done with
      | some error => .work (.error error)
      | none => .work (.ok work)
  | .send peer message => .send peer message
  | .recv peer message => .recv peer message

/-- The steps of a rank in turn, each with what the rank has executed before it. -/
def execFrom (stageNum realStageNum : ℕ) (dataIterator : Bool) :
    List LeafStep → List LeafStep → List (Op ℕ Message (Except StageError LeafStep))
  | _, [] => []
  | done, step :: steps =>
      step.exec stageNum realStageNum dataIterator done ::
        execFrom stageNum realStageNum dataIterator (done ++ [step]) steps

/-- All ranks executing their orders with blocking sends and receives, errors included. -/
def execution (stageNum realStageNum : ℕ) (dataIterator : Bool) (execOrder : ℕ → Order) :
    Net ℕ Message (Except StageError LeafStep) :=
  fun rank =>
    if rank < realStageNum then
      execFrom stageNum realStageNum dataIterator [] (execOrder rank).leaves
    else []

/-- The work raises. -/
def Raises (work : Except StageError LeafStep) : Prop := ∃ error, work = .error error

section Execution

variable {stageNum realStageNum : ℕ} {dataIterator : Bool}

/-- Errors are local work: the transfers are those of the plain network. -/
theorem comms_execFrom (done steps : List LeafStep) :
    comms (execFrom stageNum realStageNum dataIterator done steps) =
      (comms (steps.map (LeafStep.toOp realStageNum dataIterator))).map (Op.map id .ok) := by
  induction steps generalizing done with
  | nil => rfl
  | cons step steps ih =>
    have hcons : ∀ (o : Op ℕ Message (Except StageError LeafStep)) l,
        comms (o :: l) = comms [o] ++ comms l := fun o l => by
      rw [comms, comms, comms, ← List.filter_append, List.singleton_append]
    have hcons' : ∀ (o : Op ℕ Message LeafStep) l, comms (o :: l) = comms [o] ++ comms l :=
      fun o l => by rw [comms, comms, comms, ← List.filter_append, List.singleton_append]
    rw [execFrom, List.map_cons, hcons, hcons', List.map_append, ih]
    congr 1
    unfold LeafStep.exec
    cases step.toOp realStageNum dataIterator with
    | work w => cases step.error stageNum done <;> rfl
    | send q m => rfl
    | recv q m => rfl

theorem comms_execution (execOrder : ℕ → Order) (rank : ℕ) :
    comms (execution stageNum realStageNum dataIterator execOrder rank) =
      (comms (transport realStageNum dataIterator execOrder rank)).map (Op.map id .ok) := by
  unfold execution transport
  split_ifs
  · exact comms_execFrom _ _
  · rfl

/-- Only compute steps raise. -/
theorem LeafStep.error_eq_none {step : LeafStep} {done : List LeafStep}
    (h : (step.toOp realStageNum dataIterator).IsComm) : step.error stageNum done = none := by
  obtain ⟨micro, type, stage⟩ := step
  cases type <;> first | rfl | exact absurd h (isComm_work _)

/-- Which errors a rank comes to. -/
theorem error_mem_execFrom {done steps : List LeafStep} {e : StageError} :
    .work (.error e) ∈ execFrom stageNum realStageNum dataIterator done steps ↔
      ∃ l₁ step l₂, steps = l₁ ++ step :: l₂ ∧ step.error stageNum (done ++ l₁) = some e := by
  induction steps generalizing done with
  | nil => simp [execFrom]
  | cons x steps ih =>
    have hhead : .work (.error e) = x.exec stageNum realStageNum dataIterator done ↔
        x.error stageNum done = some e := by
      unfold LeafStep.exec
      cases h : x.toOp realStageNum dataIterator with
      | work w => cases x.error stageNum done <;> simp [eq_comm]
      | send q m => simp [LeafStep.error_eq_none (h ▸ isComm_send q m)]
      | recv q m => simp [LeafStep.error_eq_none (h ▸ isComm_recv q m)]
    rw [execFrom, List.mem_cons, hhead, ih]
    constructor
    · rintro (h | ⟨l₁, step, l₂, rfl, h⟩)
      · exact ⟨[], x, steps, rfl, by simpa using h⟩
      · exact ⟨x :: l₁, step, l₂, rfl, by simpa using h⟩
    · rintro ⟨l₁, step, l₂, hsplit, h⟩
      cases l₁ with
      | nil =>
        obtain ⟨rfl, rfl⟩ := List.cons.inj hsplit
        exact Or.inl (by simpa using h)
      | cons y l₁ =>
        obtain ⟨rfl, rfl⟩ := List.cons.inj hsplit
        exact Or.inr ⟨l₁, step, l₂, rfl, by simpa using h⟩

end Execution

/-- In `l`, an occurrence of `a` stands before every occurrence of `b`. -/
def Precedes {α : Type*} (l : List α) (a b : α) : Prop :=
  ∀ l₁ l₂, l = l₁ ++ b :: l₂ → a ∈ l₁

theorem precedes_of_notMem {α : Type*} {l : List α} {a b : α} (h : b ∉ l) : Precedes l a b := by
  rintro l₁ l₂ rfl
  exact absurd (List.mem_append_right _ List.mem_cons_self) h

/-- What stands before in a first part, or is in it, stands before in the whole. -/
theorem Precedes.append {α : Type*} {l l' : List α} {a b : α} (h : Precedes l a b)
    (h' : a ∈ l ∨ Precedes l' a b) : Precedes (l ++ l') a b := by
  intro l₁ l₂ heq
  rcases List.append_eq_append_iff.1 heq with ⟨d, rfl, hd⟩ | ⟨d, rfl, hd⟩
  · exact List.mem_append.2 (h'.imp id fun h' => h' d l₂ hd)
  · cases d with
    | nil =>
      rw [List.append_nil] at h'
      exact h'.resolve_right fun h' => List.not_mem_nil (h' [] l₂ hd.symm)
    | cons y d =>
      obtain ⟨rfl, -⟩ := List.cons.inj hd
      exact h l₁ d rfl

/-- In a list sorted by a key, an element of smaller key stands before. -/
theorem precedes_of_lt {α : Type*} {l : List α} {f : α → ℕ} {a b : α}
    (hl : l.Pairwise fun x y => f x < f y) (ha : a ∈ l) (hab : f a < f b) : Precedes l a b := by
  rintro l₁ l₂ rfl
  rw [List.mem_append, List.mem_cons] at ha
  rcases ha with ha | rfl | ha
  · exact ha
  · exact absurd hab (lt_irrefl _)
  · have h := (List.pairwise_append.1 hl).2.1
    exact absurd ((List.pairwise_cons.1 h).1 a ha) (by omega)

end HyperParallel.Pipeline

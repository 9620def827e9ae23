import HyperParallel.Pipeline.AddSendRecv
import HyperParallel.Pipeline.SplitOverlapDxdw
import Mathlib.Tactic.Ring

/-!
# `ScheduleInterleaved1F1B.construct_exec_order`

The compute order of every rank of the interleaved schedule, and the schedule with the transfers
inserted by `add_send_recv`.

* `ScheduleInterleaved1F1B`: the constructor's arguments; the round layout;
* `constructStageExecOrder`: warm-up, bubbles, steady state and cool-down, with the per-stage
  micro-batch counters as the source keeps them;
* `stageExecOrder_eq`: the order without counters;
* `constructExecOrder_completes`: with blocking transfers every interleaving of the ranks runs to
  the end, as long as no step raises.
-/

namespace HyperParallel.Pipeline

open Rendezvous

/-- What `ScheduleInterleaved1F1B` is built from. -/
structure ScheduleInterleaved1F1B where
  realStageNum : ℕ
  nLocalStages : ℕ
  microBatchNum : ℕ
  lessMemory : Bool
  overlapBF : Bool
  enableDxdwSplit : Bool
  deriving DecidableEq, Repr

namespace ScheduleInterleaved1F1B

/-! ### The round layout -/

/-- `itertools.accumulate`. -/
def accumulate (l : List ℕ) : List ℕ := (l.scanl (· + ·) 0).tail

/-- `bisect.bisect_right` on a sorted list. -/
def bisectRight (l : List ℕ) (x : ℕ) : ℕ := (l.takeWhile (· ≤ x)).length

variable (c : ScheduleInterleaved1F1B)

/-- `n_rounds`. -/
def nRounds : ℕ := max 1 (c.microBatchNum / c.realStageNum)

/-- `base` of `_init_round_layout`; it is negative for a short batch. -/
def roundBase : ℤ :=
  if c.microBatchNum < c.realStageNum then (c.microBatchNum : ℤ) - c.realStageNum
  else (c.microBatchNum % c.realStageNum / c.nRounds : ℕ)

/-- `remainder` of `_init_round_layout`. -/
def roundRemainder : ℕ :=
  if c.microBatchNum < c.realStageNum then 0
  else c.microBatchNum % c.realStageNum % c.nRounds

/-- `n_microbatch_per_round`. -/
def nMicrobatchPerRound : List ℕ :=
  (List.range c.nRounds).map fun i =>
    (if i < c.roundRemainder then (c.realStageNum : ℤ) + c.roundBase + 1
      else c.realStageNum + c.roundBase).toNat

/-- `n_microbatch_per_round_accu`. -/
def nMicrobatchPerRoundAccu : List ℕ :=
  0 :: (accumulate c.nMicrobatchPerRound).map (· * c.nLocalStages)

/-- `accu_index`: the round of an operation. -/
def accuIndex (opIndex : ℕ) : ℕ := bisectRight c.nMicrobatchPerRoundAccu opIndex - 1

/-- `local_index`: the local stage of a forward operation. -/
def localIndex (opIndex : ℕ) : ℕ :=
  (opIndex - c.nMicrobatchPerRoundAccu.getD (c.accuIndex opIndex) 0) /
    c.nMicrobatchPerRound.getD (c.accuIndex opIndex) 0

/-- `forward_stage_index`. -/
def forwardStageIndex (opIndex stageIndex : ℕ) : ℕ :=
  c.localIndex opIndex * c.realStageNum + stageIndex

/-- `backward_stage_index`. -/
def backwardStageIndex (opIndex stageIndex : ℕ) : ℕ :=
  (c.nLocalStages - 1 - c.localIndex opIndex) * c.realStageNum + stageIndex

/-- The stagger of the warm-up: `depth` with `less_memory`, else `2 * depth`. -/
def stagger (stageIndex : ℕ) : ℕ :=
  if c.lessMemory then c.realStageNum - 1 - stageIndex
  else 2 * (c.realStageNum - 1 - stageIndex)

/-- `warmup_ops`. -/
def warmupOps (stageIndex : ℕ) : ℕ :=
  min ((c.nLocalStages - 1) * c.nMicrobatchPerRound.getD 0 0 + c.stagger stageIndex)
    (c.microBatchNum * c.nLocalStages)

/-- `_short_micro`. -/
def shortMicro : Bool := c.microBatchNum < c.realStageNum

/-- `_trailing_bubble`. -/
def trailingBubble : ℕ := c.realStageNum - c.microBatchNum

/-! ### Emitting the operations -/

/-- The next micro-batch of every stage (`fwd_stage_micro_index`, `bwd_stage_micro_index`). -/
abbrev Counter := ℕ → ℕ

/-- `counter[stage] += 1`. -/
def Counter.bump (counter : Counter) (stage : ℕ) : Counter :=
  fun s => if s = stage then counter s + 1 else counter s

/-- One round of the loop of `_emit_warmup_ops`. -/
def warmupRound (stageIndex warmupOps : ℕ) (st : Order × Counter) (opIdx : ℕ) : Order × Counter :=
  let stage := c.forwardStageIndex opIdx stageIndex
  let micro := st.2 stage
  let needPad := c.shortMicro ∧ micro = c.microBatchNum - 1 ∧
    (opIdx ≠ warmupOps - 1 ∨ stageIndex = c.realStageNum - 1)
  (st.1 ++ [some (.leaf ⟨micro, .fwd, stage⟩)] ++
      (if needPad then List.replicate c.trailingBubble none else []),
    st.2.bump stage)

/-- `_emit_warmup_ops`. -/
def emitWarmupOps (stageIndex warmupOps : ℕ) (fwd : Counter) : Order × Counter :=
  (List.range warmupOps).foldl (c.warmupRound stageIndex warmupOps) ([], fwd)

/-- One round of the loop of `_emit_cooldown_ops`. -/
def cooldownRound (stageIndex warmupOps : ℕ) (st : Order × Counter) (opIdx : ℕ) :
    Order × Counter :=
  let stage := c.backwardStageIndex (opIdx - warmupOps) stageIndex
  let micro := st.2 stage
  let needPad := c.shortMicro ∧ micro = c.microBatchNum - 1
  (st.1 ++ [none, some (.leaf ⟨micro, .bwd, stage⟩)] ++
      (if needPad then List.replicate (2 * c.trailingBubble) none else []),
    st.2.bump stage)

/-- `_emit_cooldown_ops`. -/
def emitCooldownOps (stageIndex warmupOps fwdBwdOps totalOps : ℕ) (bwd : Counter) :
    Order × Counter :=
  (List.range' (warmupOps + fwdBwdOps) (totalOps - (warmupOps + fwdBwdOps))).foldl
    (c.cooldownRound stageIndex warmupOps) ([], bwd)

/-- One round of the loop of `_emit_1f1b_ops`. -/
def steadyRound (stageIndex warmupOps : ℕ) (st : Order × Counter × Counter) (opIdx : ℕ) :
    Order × Counter × Counter :=
  let fwdStage := c.forwardStageIndex opIdx stageIndex
  let fwdMicro := st.2.1 fwdStage
  let bwdStage := c.backwardStageIndex (opIdx - warmupOps) stageIndex
  let bwdMicro := st.2.2 bwdStage
  let needPad := c.shortMicro ∧ bwdMicro = c.microBatchNum - 1 ∧
    stageIndex = c.realStageNum - 1
  (st.1 ++ [some (.leaf ⟨fwdMicro, .fwd, fwdStage⟩), some (.leaf ⟨bwdMicro, .bwd, bwdStage⟩)] ++
      (if needPad then List.replicate (2 * c.trailingBubble) none else []),
    st.2.1.bump fwdStage, st.2.2.bump bwdStage)

/-- `_emit_1f1b_ops`. -/
def emit1f1bOps (stageIndex warmupOps fwdBwdOps : ℕ) (fwd bwd : Counter) :
    Order × Counter × Counter :=
  (List.range' warmupOps fwdBwdOps).foldl (c.steadyRound stageIndex warmupOps) ([], fwd, bwd)

/-- One round of `_collect_fwd_bwd_steps`, with the `emit_fwd` and `emit_bwd` of
`_emit_1f1b_overlap_ops`. -/
def collectRound (stageIndex warmupOps : ℕ)
    (st : List LeafStep × List LeafStep × Counter × Counter) (opIdx : ℕ) :
    List LeafStep × List LeafStep × Counter × Counter :=
  let fwdStage := c.forwardStageIndex opIdx stageIndex
  let bwdStage := c.backwardStageIndex (opIdx - warmupOps) stageIndex
  (st.1 ++ [⟨st.2.2.1 fwdStage, .fwd, fwdStage⟩], st.2.1 ++ [⟨st.2.2.2 bwdStage, .bwd, bwdStage⟩],
    st.2.2.1.bump fwdStage, st.2.2.2.bump bwdStage)

/-- `_collect_fwd_bwd_steps`. -/
def collectFwdBwdSteps (stageIndex warmupOps fwdBwdOps : ℕ) (fwd bwd : Counter) :
    List LeafStep × List LeafStep × Counter × Counter :=
  (List.range' warmupOps fwdBwdOps).foldl (c.collectRound stageIndex warmupOps)
    ([], [], fwd, bwd)

/-- `_pair_into_overlap_b_f`: the first forward alone, every backward with the next forward,
the last backward alone. -/
def pairIntoOverlapBF (fwdSteps bwdSteps : List LeafStep) : Order :=
  (fwdSteps.take 1).map (fun x => some (.leaf x)) ++
    (List.zipWith (fun b f => some (.overlap .overlapBF b f)) bwdSteps.dropLast fwdSteps.tail) ++
    bwdSteps.getLast?.toList.map fun x => some (.leaf x)

/-- `_emit_1f1b_overlap_ops`. -/
def emit1f1bOverlapOps (stageIndex warmupOps fwdBwdOps : ℕ) (fwd bwd : Counter) :
    Order × Counter × Counter :=
  let (fwdSteps, bwdSteps, fwd, bwd) :=
    c.collectFwdBwdSteps stageIndex warmupOps fwdBwdOps fwd bwd
  let needPad := c.shortMicro ∧ stageIndex = c.realStageNum - 1 ∧
    bwdSteps.getLast?.map LeafStep.microIndex = some (c.microBatchNum - 1)
  (pairIntoOverlapBF fwdSteps bwdSteps ++
      (if needPad then List.replicate (2 * c.trailingBubble) none else []), fwd, bwd)

/-- `construct_stage_exec_order`. -/
def constructStageExecOrder (stageIndex : ℕ) : Order :=
  let warmupOps := c.warmupOps stageIndex
  let fwdBwdOps := c.nLocalStages * c.microBatchNum - warmupOps
  let totalOps := 2 * warmupOps + fwdBwdOps
  let (warmup, fwd) := c.emitWarmupOps stageIndex warmupOps fun _ => 0
  let bubblesBefore1f1b := c.stagger stageIndex - c.microBatchNum
  let (steady, _, bwd) :=
    if c.overlapBF then c.emit1f1bOverlapOps stageIndex warmupOps fwdBwdOps fwd fun _ => 0
    else c.emit1f1bOps stageIndex warmupOps fwdBwdOps fwd fun _ => 0
  let (cooldown, _) := c.emitCooldownOps stageIndex warmupOps fwdBwdOps totalOps bwd
  List.replicate stageIndex none ++ warmup ++ List.replicate bubblesBefore1f1b none ++
    List.replicate (c.realStageNum - 1 - stageIndex) none ++ steady ++ cooldown

/-- The compute order of every rank with the transfers inserted. -/
def withTransfers : ℕ → Order :=
  insertComms c.constructStageExecOrder (c.nLocalStages * c.realStageNum) c.realStageNum .loop

/-- No peer of the schedule is missing. -/
theorem addSendRecv_constructStageExecOrder :
    addSendRecv c.constructStageExecOrder (c.nLocalStages * c.realStageNum) c.realStageNum .loop =
      .ok c.withTransfers :=
  addSendRecv_loop c.constructStageExecOrder

/-- `construct_exec_order`. -/
def constructExecOrder : ℕ → Order := fun rank =>
  if c.enableDxdwSplit then splitOverlapDxdw (c.withTransfers rank) else c.withTransfers rank

/-! ### The order without counters -/

/-- How often the stage `s` comes up among the first `k` operations. -/
def tally (f : ℕ → ℕ) (k : ℕ) : Counter := fun s => (List.range k).countP (f · = s)

theorem tally_succ (f : ℕ → ℕ) (k : ℕ) : tally f (k + 1) = (tally f k).bump (f k) := by
  funext s
  by_cases h : s = f k
  · simp [tally, Counter.bump, List.range_succ, h]
  · simp [tally, Counter.bump, List.range_succ, h, Ne.symm h]

/-- The `k`-th forward of a rank. -/
def fwdStep (stageIndex k : ℕ) : LeafStep :=
  ⟨tally (c.forwardStageIndex · stageIndex) k (c.forwardStageIndex k stageIndex), .fwd,
    c.forwardStageIndex k stageIndex⟩

/-- The `j`-th backward of a rank. -/
def bwdStep (stageIndex j : ℕ) : LeafStep :=
  ⟨tally (c.backwardStageIndex · stageIndex) j (c.backwardStageIndex j stageIndex), .bwd,
    c.backwardStageIndex j stageIndex⟩

/-- The operation is the last of its chunk in a batch that is too short for the pipeline. -/
abbrev EndsChunk (micro : ℕ) : Prop := c.shortMicro ∧ micro = c.microBatchNum - 1

/-- The bubbles after the `k`-th forward of a warm-up of `w` forwards. -/
def warmupPad (stageIndex w k : ℕ) : ℕ :=
  if c.EndsChunk (c.fwdStep stageIndex k).microIndex ∧
      (k ≠ w - 1 ∨ stageIndex = c.realStageNum - 1)
  then c.trailingBubble else 0

/-- The bubbles after the `j`-th backward of the cool-down. -/
def cooldownPad (stageIndex j : ℕ) : ℕ :=
  if c.EndsChunk (c.bwdStep stageIndex j).microIndex then 2 * c.trailingBubble else 0

/-- The bubbles after the `j`-th backward of the steady state. -/
def steadyPad (stageIndex j : ℕ) : ℕ :=
  if stageIndex = c.realStageNum - 1 then c.cooldownPad stageIndex j else 0

/-- The forward, then its bubbles. -/
def warmupBlock (stageIndex w k : ℕ) : Order :=
  some (.leaf (c.fwdStep stageIndex k)) :: List.replicate (c.warmupPad stageIndex w k) none

/-- A forward and the backward `w` operations behind it, then the bubbles. -/
def steadyBlock (stageIndex w j : ℕ) : Order :=
  some (.leaf (c.fwdStep stageIndex (w + j))) :: some (.leaf (c.bwdStep stageIndex j)) ::
    List.replicate (c.steadyPad stageIndex j) none

/-- A bubble, the backward, then its bubbles. -/
def cooldownBlock (stageIndex j : ℕ) : Order :=
  none :: some (.leaf (c.bwdStep stageIndex j)) ::
    List.replicate (c.cooldownPad stageIndex j) none

/-- The steady state under `overlap_b_f`. -/
def overlapBlocks (stageIndex w n : ℕ) : Order :=
  pairIntoOverlapBF ((List.range n).map fun j => c.fwdStep stageIndex (w + j))
      ((List.range n).map (c.bwdStep stageIndex)) ++
    List.replicate (if n = 0 then 0 else c.steadyPad stageIndex (n - 1)) none

theorem emitWarmupOps_eq (i w : ℕ) :
    c.emitWarmupOps i w (fun _ => 0) =
      ((List.range w).flatMap (c.warmupBlock i w), tally (c.forwardStageIndex · i) w) := by
  suffices h : ∀ n, (List.range n).foldl (c.warmupRound i w) ([], fun _ => 0) =
      ((List.range n).flatMap (c.warmupBlock i w), tally (c.forwardStageIndex · i) n) from h w
  intro n
  induction n with
  | zero => rfl
  | succ n ih =>
    rw [List.range_succ, List.foldl_append, ih, List.foldl_cons, List.foldl_nil, tally_succ]
    simp only [List.flatMap_append, List.flatMap_singleton, warmupRound, warmupBlock, warmupPad,
      fwdStep, EndsChunk, List.append_assoc, and_assoc]
    split_ifs <;> rfl

theorem emit1f1bOps_eq (i w n : ℕ) :
    c.emit1f1bOps i w n (tally (c.forwardStageIndex · i) w) (fun _ => 0) =
      ((List.range n).flatMap (c.steadyBlock i w), tally (c.forwardStageIndex · i) (w + n),
        tally (c.backwardStageIndex · i) n) := by
  unfold emit1f1bOps
  induction n with
  | zero => rfl
  | succ n ih =>
    have hsub : w + n - w = n := by omega
    rw [List.range'_1_concat, List.foldl_append, ih, List.foldl_cons, List.foldl_nil,
      List.range_succ, ← Nat.add_assoc, tally_succ, tally_succ]
    simp only [List.flatMap_append, List.flatMap_singleton, steadyRound, steadyBlock, steadyPad,
      cooldownPad, fwdStep, bwdStep, EndsChunk, List.append_assoc, hsub]
    split_ifs <;> simp_all

theorem collectFwdBwdSteps_eq (i w n : ℕ) :
    c.collectFwdBwdSteps i w n (tally (c.forwardStageIndex · i) w) (fun _ => 0) =
      ((List.range n).map fun j => c.fwdStep i (w + j), (List.range n).map (c.bwdStep i),
        tally (c.forwardStageIndex · i) (w + n), tally (c.backwardStageIndex · i) n) := by
  unfold collectFwdBwdSteps
  induction n with
  | zero => rfl
  | succ n ih =>
    have hsub : w + n - w = n := by omega
    rw [List.range'_1_concat, List.foldl_append, ih, List.foldl_cons, List.foldl_nil,
      List.range_succ, ← Nat.add_assoc, tally_succ, tally_succ]
    simp only [List.map_append, List.map_cons, List.map_nil, collectRound, fwdStep, bwdStep, hsub]

theorem emit1f1bOverlapOps_eq (i w n : ℕ) :
    c.emit1f1bOverlapOps i w n (tally (c.forwardStageIndex · i) w) (fun _ => 0) =
      (c.overlapBlocks i w n, tally (c.forwardStageIndex · i) (w + n),
        tally (c.backwardStageIndex · i) n) := by
  unfold emit1f1bOverlapOps
  rw [collectFwdBwdSteps_eq]
  cases n with
  | zero => simp [overlapBlocks]
  | succ n =>
    simp only [overlapBlocks, steadyPad, cooldownPad, EndsChunk, List.range_succ, List.map_append,
      List.map_cons, List.map_nil, List.getLast?_concat, Option.map_some, Option.some.injEq,
      Nat.add_one_ne_zero, if_false, Nat.add_sub_cancel]
    split_ifs <;> simp_all

theorem emitCooldownOps_eq (i w m n : ℕ) :
    c.emitCooldownOps i w m (w + m + n) (tally (c.backwardStageIndex · i) m) =
      ((List.range n).flatMap fun j => c.cooldownBlock i (m + j),
        tally (c.backwardStageIndex · i) (m + n)) := by
  unfold emitCooldownOps
  rw [Nat.add_sub_cancel_left]
  induction n with
  | zero => rfl
  | succ n ih =>
    have hsub : w + m + n - w = m + n := by omega
    rw [List.range'_1_concat, List.foldl_append, ih, List.foldl_cons, List.foldl_nil,
      List.range_succ, ← Nat.add_assoc, tally_succ]
    have hpad : (if c.shortMicro ∧ (c.bwdStep i (m + n)).microIndex = c.microBatchNum - 1 then
        List.replicate (2 * c.trailingBubble) none else []) =
        (List.replicate (c.cooldownPad i (m + n)) none : Order) := by
      unfold cooldownPad
      split_ifs <;> rfl
    simp only [List.flatMap_append, List.flatMap_singleton, cooldownRound, cooldownBlock, hsub,
      List.append_assoc, ← hpad]
    rfl

/-- How many forwards of a rank are paired with a backward. -/
def steadyOps (stageIndex : ℕ) : ℕ := c.nLocalStages * c.microBatchNum - c.warmupOps stageIndex

/-- The steady state of a rank. -/
def steady (stageIndex : ℕ) : Order :=
  if c.overlapBF then
    c.overlapBlocks stageIndex (c.warmupOps stageIndex) (c.steadyOps stageIndex)
  else
    (List.range (c.steadyOps stageIndex)).flatMap
      (c.steadyBlock stageIndex (c.warmupOps stageIndex))

theorem constructStageExecOrder_eq (i : ℕ) :
    c.constructStageExecOrder i =
      List.replicate i none ++
        (List.range (c.warmupOps i)).flatMap (c.warmupBlock i (c.warmupOps i)) ++
        List.replicate (c.stagger i - c.microBatchNum) none ++
        List.replicate (c.realStageNum - 1 - i) none ++ c.steady i ++
        (List.range (c.warmupOps i)).flatMap fun j => c.cooldownBlock i (c.steadyOps i + j) := by
  have htotal : 2 * c.warmupOps i + c.steadyOps i =
      c.warmupOps i + c.steadyOps i + c.warmupOps i := by ring
  unfold constructStageExecOrder
  simp only [emitWarmupOps_eq, emit1f1bOps_eq, emit1f1bOverlapOps_eq]
  unfold steady
  rw [← steadyOps, htotal]
  split_ifs <;> simp only [emitCooldownOps_eq]

/-! ### The steps of a rank -/

@[simp] theorem leaves_replicate_none (n : ℕ) :
    Order.leaves (List.replicate n none) = [] := by
  induction n with
  | zero => rfl
  | succ n ih => simpa [List.replicate_succ] using ih

theorem leaves_warmupBlock (i w k : ℕ) :
    Order.leaves (c.warmupBlock i w k) = [c.fwdStep i k] := by
  simp [warmupBlock, MetaStep.leaves]

theorem leaves_steadyBlock (i w j : ℕ) :
    Order.leaves (c.steadyBlock i w j) = [c.fwdStep i (w + j), c.bwdStep i j] := by
  simp [steadyBlock, MetaStep.leaves]

theorem leaves_cooldownBlock (i j : ℕ) :
    Order.leaves (c.cooldownBlock i j) = [c.bwdStep i j] := by
  simp [cooldownBlock, MetaStep.leaves]

theorem pairIntoOverlapBF_range (f b : ℕ → LeafStep) (m : ℕ) :
    pairIntoOverlapBF ((List.range (m + 1)).map f) ((List.range (m + 1)).map b) =
      some (.leaf (f 0)) ::
        ((List.range m).map fun j => some (.overlap .overlapBF (b j) (f (j + 1)))) ++
        [some (.leaf (b m))] := by
  have htake : ((List.range (m + 1)).map f).take 1 = [f 0] := by
    simp [List.range_succ_eq_map]
  have htail : ((List.range (m + 1)).map f).tail = (List.range m).map fun j => f (j + 1) := by
    simp [List.range_succ_eq_map, Function.comp_def]
  have hinit : ((List.range (m + 1)).map b).dropLast = (List.range m).map b := by
    simp [List.range_succ]
  have hlast : ((List.range (m + 1)).map b).getLast? = some (b m) := by
    simp [List.range_succ]
  unfold pairIntoOverlapBF
  rw [htake, htail, hinit, hlast, List.zipWith_map, List.zipWith_self]
  rfl

/-- Pairing changes nothing in the order of the steps. -/
theorem leaves_pairIntoOverlapBF (f b : ℕ → LeafStep) (n : ℕ) :
    Order.leaves (pairIntoOverlapBF ((List.range n).map f) ((List.range n).map b)) =
      (List.range n).flatMap fun j => [f j, b j] := by
  cases n with
  | zero => rfl
  | succ m =>
    rw [pairIntoOverlapBF_range]
    induction m with
    | zero => rfl
    | succ m ih =>
      rw [List.range_succ (n := m + 1), List.flatMap_append, ← ih]
      simp [List.range_succ, MetaStep.leaves]

theorem leaves_steady (i : ℕ) :
    Order.leaves (c.steady i) = (List.range (c.steadyOps i)).flatMap fun j =>
      [c.fwdStep i (c.warmupOps i + j), c.bwdStep i j] := by
  unfold steady
  split_ifs
  · unfold overlapBlocks
    rw [Order.leaves_append, leaves_pairIntoOverlapBF, leaves_replicate_none, List.append_nil]
  · rw [Order.leaves_flatMap]
    simp only [leaves_steadyBlock]

/-- The forwards and backwards of a rank, in the order it runs them. -/
theorem leaves_constructStageExecOrder (i : ℕ) :
    (c.constructStageExecOrder i).leaves =
      (List.range (c.warmupOps i)).map (c.fwdStep i) ++
        ((List.range (c.steadyOps i)).flatMap fun j =>
          [c.fwdStep i (c.warmupOps i + j), c.bwdStep i j]) ++
        (List.range (c.warmupOps i)).map fun j => c.bwdStep i (c.steadyOps i + j) := by
  rw [constructStageExecOrder_eq]
  simp only [Order.leaves_append, leaves_replicate_none, Order.leaves_flatMap, leaves_warmupBlock,
    leaves_cooldownBlock, leaves_steady, List.nil_append, List.append_nil, ← List.map_eq_flatMap]

theorem mem_leaves_constructStageExecOrder {i : ℕ} {x : LeafStep}
    (h : x ∈ (c.constructStageExecOrder i).leaves) :
    (∃ k, x = c.fwdStep i k) ∨ ∃ j, x = c.bwdStep i j := by
  rw [leaves_constructStageExecOrder] at h
  simp only [List.mem_append, List.mem_map, List.mem_flatMap, List.mem_cons, List.not_mem_nil,
    or_false] at h
  rcases h with (⟨k, -, rfl⟩ | ⟨j, -, rfl | rfl⟩) | ⟨j, -, rfl⟩
  · exact Or.inl ⟨k, rfl⟩
  · exact Or.inl ⟨_, rfl⟩
  · exact Or.inr ⟨j, rfl⟩
  · exact Or.inr ⟨_, rfl⟩

theorem forwardStageIndex_mod {i : ℕ} (h : i < c.realStageNum) (k : ℕ) :
    c.forwardStageIndex k i % c.realStageNum = i := by
  unfold forwardStageIndex
  rw [Nat.mul_add_mod_of_lt h]

theorem backwardStageIndex_mod {i : ℕ} (h : i < c.realStageNum) (j : ℕ) :
    c.backwardStageIndex j i % c.realStageNum = i := by
  unfold backwardStageIndex
  rw [Nat.mul_add_mod_of_lt h]

theorem computes : Computes c.constructStageExecOrder c.realStageNum := by
  intro rank hrank x hx
  rcases c.mem_leaves_constructStageExecOrder hx with ⟨k, rfl⟩ | ⟨j, rfl⟩
  · exact ⟨Or.inl rfl, c.forwardStageIndex_mod hrank k⟩
  · exact ⟨Or.inr rfl, c.backwardStageIndex_mod hrank j⟩

theorem comms_constructExecOrder (dataIterator : Bool) (p : ℕ) :
    comms (transport c.realStageNum dataIterator c.constructExecOrder p) =
      comms (transport c.realStageNum dataIterator c.withTransfers p) := by
  unfold transport constructExecOrder
  split_ifs
  · exact orderComms_splitOverlapDxdw dataIterator (c.withTransfers p)
  · rfl
  · rfl

/-- With blocking sends and receives every interleaving of the ranks runs to the end, as long as no
step raises. -/
theorem constructExecOrder_completes (dataIterator : Bool) :
    Completes (execution (c.nLocalStages * c.realStageNum) c.realStageNum dataIterator
      c.constructExecOrder) :=
  execution_completes dataIterator c.computes _ (c.comms_constructExecOrder dataIterator)

/-- What one rank sends another is what the other receives, in order. -/
theorem sendsTo_withTransfers (dataIterator : Bool) (p q : ℕ) :
    sendsTo q (transport c.realStageNum dataIterator c.withTransfers p) =
      recvsFrom p (transport c.realStageNum dataIterator c.withTransfers q) :=
  (insertComms_completes dataIterator c.computes fun _ => rfl).2.2 p q

end ScheduleInterleaved1F1B

end HyperParallel.Pipeline

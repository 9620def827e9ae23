import HyperParallel.Pipeline.MetaStep
import Mathlib.Data.List.Range
import Mathlib.Tactic.Ring

/-!
# `Schedule1F1B.construct_exec_order`

The per-rank order of the 1F1B schedule: warm-up, an early forward send when the warm-up cannot
fill up, the steady phase and the cool-down.

* `constructStageOrder`: the loop body of `construct_exec_order` for one stage, with the two
  counters `fwd_index` and `bwd_index` as the source keeps them;
* `stageOrder_eq`: the order without counters, one block of steps per round of each loop;
* `time`: a time for every step of every rank; `stageOrder_sorted` says that every rank runs its
  steps in order of time, and the two halves of a transfer carry the same time, so the network
  of all ranks is a timed one.
-/

namespace HyperParallel.Pipeline.Schedule1F1B

open Rendezvous

/-! ### The order as the source builds it -/

/-- `order_list`, `fwd_index` and `bwd_index` of `construct_exec_order`. -/
structure OrderState where
  orderList : List LeafStep
  fwdIndex : ℕ
  bwdIndex : ℕ

/-- The steps one round of the warm-up loop appends. -/
def warmupSteps (stageIndex warmupMicroBatches fwdIndex : ℕ) : List LeafStep :=
  [⟨fwdIndex, .dataLoad, stageIndex⟩] ++
  (if stageIndex ≠ 0 then
    [⟨fwdIndex, .dataRecv, stageIndex⟩, ⟨fwdIndex, .fwdRecv, stageIndex⟩] else []) ++
  (if stageIndex % 2 = 0 then
    [⟨fwdIndex, .fwd, stageIndex⟩] ++
    (if fwdIndex ≠ warmupMicroBatches - 1 then
      [⟨fwdIndex, .dataSend, stageIndex⟩, ⟨fwdIndex, .fwdSend, stageIndex⟩] else [])
  else
    (if 0 < fwdIndex then
      [⟨fwdIndex - 1, .dataSend, stageIndex⟩, ⟨fwdIndex - 1, .fwdSend, stageIndex⟩] else []) ++
    [⟨fwdIndex, .fwd, stageIndex⟩])

/-- The steps one round of the steady loop appends. -/
def steadySteps (realStageNum stageIndex fwdIndex bwdIndex : ℕ) : List LeafStep :=
  (if stageIndex ≠ realStageNum - 1 then
    [⟨bwdIndex, .bwdRecv, stageIndex⟩, ⟨fwdIndex - 1, .dataSend, stageIndex⟩,
      ⟨fwdIndex - 1, .fwdSend, stageIndex⟩] else []) ++
  [⟨bwdIndex, .bwd, stageIndex⟩, ⟨fwdIndex, .dataLoad, stageIndex⟩] ++
  (if stageIndex ≠ 0 then
    [⟨bwdIndex, .bwdSend, stageIndex⟩, ⟨fwdIndex, .dataRecv, stageIndex⟩,
      ⟨fwdIndex, .fwdRecv, stageIndex⟩] else []) ++
  [⟨fwdIndex, .fwd, stageIndex⟩]

/-- The steps one round of the cool-down loop appends. -/
def cooldownSteps (realStageNum microBatchNum warmupMicroBatches stageIndex fwdIndex
    bwdIndex : ℕ) : List LeafStep :=
  (if stageIndex ≠ realStageNum - 1 then
    [⟨bwdIndex, .bwdRecv, stageIndex⟩] ++
    (if bwdIndex = microBatchNum - warmupMicroBatches ∧ fwdIndex ≤ microBatchNum then
      [⟨fwdIndex - 1, .dataSend, stageIndex⟩, ⟨fwdIndex - 1, .fwdSend, stageIndex⟩] else [])
   else []) ++
  [⟨bwdIndex, .bwd, stageIndex⟩] ++
  (if stageIndex ≠ 0 then [⟨bwdIndex, .bwdSend, stageIndex⟩] else [])

/-- One round of the warm-up loop. -/
def warmupRound (stageIndex warmupMicroBatches : ℕ) (st : OrderState) : OrderState :=
  { st with
    orderList := st.orderList ++ warmupSteps stageIndex warmupMicroBatches st.fwdIndex
    fwdIndex := st.fwdIndex + 1 }

/-- One round of the steady loop. -/
def steadyRound (realStageNum stageIndex : ℕ) (st : OrderState) : OrderState :=
  { orderList := st.orderList ++ steadySteps realStageNum stageIndex st.fwdIndex st.bwdIndex
    fwdIndex := st.fwdIndex + 1
    bwdIndex := st.bwdIndex + 1 }

/-- One round of the cool-down loop. -/
def cooldownRound (realStageNum microBatchNum warmupMicroBatches stageIndex : ℕ)
    (st : OrderState) : OrderState :=
  { st with
    orderList := st.orderList ++ cooldownSteps realStageNum microBatchNum warmupMicroBatches
      stageIndex st.fwdIndex st.bwdIndex
    bwdIndex := st.bwdIndex + 1 }

/-- If the warm-up cannot fill up, its last forward is sent in advance. -/
def earlySend (realStageNum microBatchNum stageIndex : ℕ) (st : OrderState) : OrderState :=
  if realStageNum - stageIndex > microBatchNum then
    { st with
      orderList := st.orderList ++ [⟨st.fwdIndex - 1, .dataSend, stageIndex⟩,
        ⟨st.fwdIndex - 1, .fwdSend, stageIndex⟩]
      fwdIndex := st.fwdIndex + 1 }
  else st

/-- `order_list` of one stage. -/
def constructStageOrder (realStageNum microBatchNum stageIndex : ℕ) : List LeafStep :=
  let warmupMicroBatches := min (realStageNum - stageIndex) microBatchNum
  let st := (warmupRound stageIndex warmupMicroBatches)^[warmupMicroBatches] ⟨[], 0, 0⟩
  let st := earlySend realStageNum microBatchNum stageIndex st
  let steadyMicroBatches := microBatchNum - warmupMicroBatches
  let st := (steadyRound realStageNum stageIndex)^[steadyMicroBatches] st
  let st := (cooldownRound realStageNum microBatchNum warmupMicroBatches
    stageIndex)^[warmupMicroBatches] st
  st.orderList

/-- `construct_exec_order`: stage `i` runs on rank `i`. -/
def constructExecOrder (realStageNum microBatchNum : ℕ) : ℕ → Order := fun stageIndex =>
  (constructStageOrder realStageNum microBatchNum stageIndex).map fun step => some (.leaf step)

/-! ### The order without counters -/

theorem iterate_warmupRound (s w n : ℕ) (st : OrderState) :
    (warmupRound s w)^[n] st =
      ⟨st.orderList ++ (List.range n).flatMap (fun i => warmupSteps s w (st.fwdIndex + i)),
        st.fwdIndex + n, st.bwdIndex⟩ := by
  induction n with
  | zero => simp
  | succ n ih =>
    rw [Function.iterate_succ_apply', ih, List.range_succ]
    simp [warmupRound, Nat.add_assoc]

theorem iterate_steadyRound (R s n : ℕ) (st : OrderState) :
    (steadyRound R s)^[n] st =
      ⟨st.orderList ++
          (List.range n).flatMap (fun i => steadySteps R s (st.fwdIndex + i) (st.bwdIndex + i)),
        st.fwdIndex + n, st.bwdIndex + n⟩ := by
  induction n with
  | zero => simp
  | succ n ih =>
    rw [Function.iterate_succ_apply', ih, List.range_succ]
    simp [steadyRound, Nat.add_assoc]

theorem iterate_cooldownRound (R M w s n : ℕ) (st : OrderState) :
    (cooldownRound R M w s)^[n] st =
      ⟨st.orderList ++
          (List.range n).flatMap (fun i => cooldownSteps R M w s st.fwdIndex (st.bwdIndex + i)),
        st.fwdIndex, st.bwdIndex + n⟩ := by
  induction n with
  | zero => simp
  | succ n ih =>
    rw [Function.iterate_succ_apply', ih, List.range_succ]
    simp [cooldownRound, Nat.add_assoc]

/-- The warm-up blocks. -/
def warmup (R M s : ℕ) : List LeafStep :=
  (List.range (min (R - s) M)).flatMap (warmupSteps s (min (R - s) M))

/-- The early send, when there are fewer micro-batches than stages from `s` on. -/
def early (R M s : ℕ) : List LeafStep :=
  if R - s > M then [⟨M - 1, .dataSend, s⟩, ⟨M - 1, .fwdSend, s⟩] else []

/-- The steady blocks. -/
def steady (R M s : ℕ) : List LeafStep :=
  (List.range (M - (R - s))).flatMap fun i => steadySteps R s (R - s + i) i

/-- The cool-down blocks. -/
def cooldown (R M s : ℕ) : List LeafStep :=
  (List.range (min (R - s) M)).flatMap fun i =>
    cooldownSteps R M (min (R - s) M) s (if R - s > M then M + 1 else M) (M - (R - s) + i)

theorem stageOrder_eq (R M s : ℕ) :
    constructStageOrder R M s = warmup R M s ++ early R M s ++ steady R M s ++ cooldown R M s := by
  unfold constructStageOrder
  simp only [iterate_warmupRound, List.nil_append, Nat.zero_add]
  by_cases h : R - s > M
  · have hmin : min (R - s) M = M := by omega
    have hsub : M - (R - s) = 0 := by omega
    simp [earlySend, h, iterate_steadyRound, iterate_cooldownRound, warmup, early, steady,
      cooldown, hmin, hsub]
  · have hmin : min (R - s) M = R - s := by omega
    have hfwd : R - s + (M - (R - s)) = M := by omega
    simp [earlySend, h, iterate_steadyRound, iterate_cooldownRound, warmup, early, steady,
      cooldown, hmin, hfwd]

/-! ### Times -/

/-- The time stage `s` receives the forward input of micro-batch `f`: two units per micro-batch
while the pipeline fills, four afterwards. -/
def fwdTime (R s f : ℕ) : ℕ :=
  if f + s + 1 ≤ R then 2 * f + 2 * s + (s + 1) % 2 else 4 * f + 2 * s + 3

/-- The time stage `s` sends the gradient of micro-batch `j` back. -/
def bwdTime (R s j : ℕ) : ℕ := 4 * j + 4 * R + 2 - 2 * s

/-- A time for every step.  A transfer of the data keys comes right before the transfer of the
activations, and the local steps fit in between. -/
def time (R : ℕ) (step : LeafStep) : ℕ :=
  let s := step.stageIndex
  let m := step.microIndex
  match step.type with
  | .dataLoad => if m + s + 1 ≤ R then 8 * fwdTime R s m - 6 else 8 * fwdTime R s m - 10
  | .dataRecv => 8 * fwdTime R s m - 1
  | .fwdRecv => 8 * fwdTime R s m
  | .fwd =>
      if m + s + 1 ≤ R ∧ s % 2 = 1 then 8 * fwdTime R s m + 9 else 8 * fwdTime R s m + 1
  | .dataSend => 8 * fwdTime R (s + 1) m - 1
  | .fwdSend => 8 * fwdTime R (s + 1) m
  | .bwdRecv => 8 * bwdTime R (s + 1) m
  | .bwd => 8 * bwdTime R s m - 3
  | .bwdSend => 8 * bwdTime R s m
  | _ => 0

theorem fwdTime_warmup {R s f : ℕ} (h : f + s + 1 ≤ R) :
    fwdTime R s f = 2 * f + 2 * s + (s + 1) % 2 := if_pos h

theorem fwdTime_steady {R s f : ℕ} (h : R < f + s + 1) : fwdTime R s f = 4 * f + 2 * s + 3 :=
  if_neg (by omega)

/-- `l` is sorted by time, and its times lie between `lo` and `hi`. -/
def Slot (R lo hi : ℕ) (l : List LeafStep) : Prop :=
  (l.Pairwise fun x y => time R x < time R y) ∧ ∀ x ∈ l, lo ≤ time R x ∧ time R x < hi

theorem Slot.nil (R lo hi : ℕ) : Slot R lo hi [] := ⟨List.Pairwise.nil, by simp⟩

theorem Slot.mono {R lo hi lo' hi' : ℕ} {l : List LeafStep} (h : Slot R lo hi l) (hlo : lo' ≤ lo)
    (hhi : hi ≤ hi') : Slot R lo' hi' l :=
  ⟨h.1, fun x hx => ⟨hlo.trans (h.2 x hx).1, (h.2 x hx).2.trans_le hhi⟩⟩

theorem Slot.append {R lo mid hi : ℕ} {l l' : List LeafStep} (h : Slot R lo mid l)
    (h' : Slot R mid hi l') (hlo : lo ≤ mid) (hhi : mid ≤ hi) : Slot R lo hi (l ++ l') := by
  refine ⟨List.pairwise_append.2 ⟨h.1, h'.1, fun x hx y hy => ?_⟩, fun x hx => ?_⟩
  · have h1 := (h.2 x hx).2
    have h2 := (h'.2 y hy).1
    omega
  · rcases List.mem_append.1 hx with hx | hx
    · have h1 := h.2 x hx
      omega
    · have h1 := h'.2 x hx
      omega

theorem slot_nil {R lo hi : ℕ} : Slot R lo hi [] ↔ True := iff_true_intro (Slot.nil R lo hi)

/-- A step begins a slot when the others fit in after it. -/
theorem slot_cons {R lo hi : ℕ} {x : LeafStep} {l : List LeafStep} :
    Slot R lo hi (x :: l) ↔ lo ≤ time R x ∧ time R x < hi ∧ Slot R (time R x + 1) hi l := by
  unfold Slot
  rw [List.pairwise_cons, List.forall_mem_cons]
  constructor
  · rintro ⟨⟨hx, hl⟩, hbounds, hrest⟩
    exact ⟨hbounds.1, hbounds.2, hl, fun y hy => ⟨hx y hy, (hrest y hy).2⟩⟩
  · rintro ⟨hlo, hhi, hl, hrest⟩
    refine ⟨⟨fun y hy => (hrest y hy).1, hl⟩, ⟨hlo, hhi⟩, fun y hy => ?_⟩
    exact ⟨hlo.trans (Nat.le_of_lt (hrest y hy).1), (hrest y hy).2⟩

/-- One slot after the other, one for each round of a loop. -/
theorem Slot.flatMap_range {R n : ℕ} {g : ℕ → List LeafStep} (lo : ℕ → ℕ) (hlo : Monotone lo)
    (h : ∀ i < n, Slot R (lo i) (lo (i + 1)) (g i)) :
    Slot R (lo 0) (lo n) ((List.range n).flatMap g) := by
  induction n with
  | zero => exact Slot.nil R _ _
  | succ n ih =>
    rw [List.range_succ, List.flatMap_append, List.flatMap_singleton]
    exact (ih fun i hi => h i (by omega)).append (h n (by omega)) (hlo (by omega))
      (hlo (by omega))

section Sorted

variable {R M s : ℕ}

/-- When the warm-up round `f` of `w` rounds begins. -/
def warmupStart (s w f : ℕ) : ℕ :=
  16 * f + 16 * s + (if f < w then 8 * ((s + 1) % 2) else 0) - 6

theorem warmupStart_mono (s w : ℕ) : Monotone (warmupStart s w) := by
  intro a b hab
  unfold warmupStart
  split_ifs <;> omega

theorem warmupSteps_slot {w f : ℕ} (hf : f < w) (hw : w + s ≤ R) :
    Slot R (warmupStart s w f) (warmupStart s w (f + 1)) (warmupSteps s w f) := by
  have hf' : f + s + 1 ≤ R := by omega
  have hG : fwdTime R s f = 2 * f + 2 * s + (s + 1) % 2 := fwdTime_warmup hf'
  rcases Nat.mod_two_eq_zero_or_one s with h | h
  · -- an even stage sends right after its own forward
    have h1 : (s + 1) % 2 = 1 := by omega
    have hlo : warmupStart s w f = 16 * f + 16 * s + 2 := by
      unfold warmupStart; rw [if_pos hf]; omega
    by_cases hlast : f = w - 1
    · have hhi : warmupStart s w (f + 1) = 16 * f + 16 * s + 10 := by
        unfold warmupStart; rw [if_neg (by omega)]; omega
      have hskip : ¬ f ≠ w - 1 := by omega
      unfold warmupSteps
      rw [hlo, hhi, if_pos h, if_neg hskip]
      split_ifs <;> simp only [List.cons_append, List.nil_append, List.append_nil,
        slot_cons, slot_nil, time, if_true, if_false, true_and, and_true, Nat.zero_ne_one, hG, h,
        h1, hf'] <;> omega
    · have hhi : warmupStart s w (f + 1) = 16 * f + 16 * s + 18 := by
        unfold warmupStart; rw [if_pos (by omega)]; omega
      have hG' : fwdTime R (s + 1) f = 2 * f + 2 * s + 2 := by
        rw [fwdTime_warmup (by omega)]; omega
      unfold warmupSteps
      rw [hlo, hhi, if_pos h, if_pos hlast]
      split_ifs <;> simp only [List.cons_append, List.nil_append, List.append_nil,
        slot_cons, slot_nil, time, if_true, if_false, true_and, and_true, Nat.zero_ne_one, hG, hG',
        h, h1, hf'] <;> omega
  · -- an odd stage sends its previous forward before it runs this one
    have h1 : (s + 1) % 2 = 0 := by omega
    have hG' : 0 < f → fwdTime R (s + 1) (f - 1) = 2 * f + 2 * s + 1 := fun hpos => by
      rw [fwdTime_warmup (by omega)]; omega
    have hlo : warmupStart s w f = 16 * f + 16 * s - 6 := by
      unfold warmupStart; rw [if_pos hf]; omega
    have hhi : warmupStart s w (f + 1) = 16 * f + 16 * s + 10 := by
      unfold warmupStart; split_ifs <;> omega
    have hs0 : s ≠ 0 := by omega
    have hodd : ¬ s % 2 = 0 := by omega
    unfold warmupSteps
    rw [hlo, hhi, if_pos hs0, if_neg hodd]
    split_ifs with hpos
    · simp only [List.cons_append, List.nil_append, slot_cons, slot_nil, time, if_true, and_true,
        hG, hG' hpos, h, h1, hf']
      omega
    · simp only [List.cons_append, List.nil_append, slot_cons, slot_nil, time, if_true, and_true,
        hG, h, h1, hf']
      omega

theorem early_slot (h : s < R) (hM : 0 < M) :
    Slot R (warmupStart s (min (R - s) M) (min (R - s) M)) (8 * (4 * R - 2 * s))
      (early R M s) := by
  unfold early
  split_ifs with hlt
  · have hG : fwdTime R (s + 1) (M - 1) = 2 * M + 2 * s + (s + 2) % 2 := by
      rw [fwdTime_warmup (by omega)]; omega
    have hlo : warmupStart s (min (R - s) M) (min (R - s) M) = 16 * M + 16 * s - 6 := by
      unfold warmupStart; rw [if_neg (lt_irrefl _)]; omega
    rw [hlo]
    simp only [slot_cons, slot_nil, time, and_true, hG]
    omega
  · exact Slot.nil R _ _

theorem steadySteps_slot {i : ℕ} (h : s < R) :
    Slot R (8 * (4 * i + (4 * R - 2 * s))) (8 * (4 * (i + 1) + (4 * R - 2 * s)))
      (steadySteps R s (R - s + i) i) := by
  have hG : fwdTime R s (R - s + i) = 4 * i + (4 * R - 2 * s) + 3 := by
    rw [fwdTime_steady (by omega)]; omega
  have hG' : fwdTime R (s + 1) (R - s + i - 1) = 4 * i + (4 * R - 2 * s) + 1 := by
    rw [fwdTime_steady (by omega)]; omega
  have hH : bwdTime R s i = 4 * i + (4 * R - 2 * s) + 2 := by unfold bwdTime; omega
  have hH' : bwdTime R (s + 1) i = 4 * i + (4 * R - 2 * s) := by unfold bwdTime; omega
  have hcold : ¬ R - s + i + s + 1 ≤ R := by omega
  unfold steadySteps
  split_ifs <;> simp only [List.cons_append, List.nil_append, List.append_nil,
    slot_cons, slot_nil, time, if_false, false_and, and_true, hG, hG', hH, hH', hcold] <;> omega

theorem cooldownSteps_slot {i : ℕ} (h : s < R) :
    Slot R (8 * (4 * (M - (R - s) + i) + (4 * R - 2 * s)))
      (8 * (4 * (M - (R - s) + i + 1) + (4 * R - 2 * s)))
      (cooldownSteps R M (min (R - s) M) s (if R - s > M then M + 1 else M) (M - (R - s) + i)) := by
  have hH : bwdTime R s (M - (R - s) + i) = 4 * (M - (R - s) + i) + (4 * R - 2 * s) + 2 := by
    unfold bwdTime; omega
  have hH' : bwdTime R (s + 1) (M - (R - s) + i) = 4 * (M - (R - s) + i) + (4 * R - 2 * s) := by
    unfold bwdTime; omega
  by_cases hlt : R - s > M
  · -- the last forward has been sent in advance
    have hguard : ¬ M + 1 ≤ M := by omega
    unfold cooldownSteps
    simp only [hlt, if_true, hguard, and_false, if_false]
    split_ifs <;> simp only [List.cons_append, List.nil_append, List.append_nil,
      slot_cons, slot_nil, time, and_true, hH, hH'] <;> omega
  · have hG : fwdTime R (s + 1) (M - 1) = 4 * (M - (R - s)) + (4 * R - 2 * s) + 1 := by
      rw [fwdTime_steady (by omega)]; omega
    unfold cooldownSteps
    simp only [hlt, if_false]
    split_ifs <;> simp only [List.cons_append, List.nil_append, List.append_nil,
      slot_cons, slot_nil, time, and_true, hG, hH, hH'] <;> omega

/-- Every stage runs its steps in order of time. -/
theorem stageOrder_sorted (h : s < R) (hM : 0 < M) :
    (constructStageOrder R M s).Pairwise fun x y => time R x < time R y := by
  have hw : Slot R (warmupStart s (min (R - s) M) 0)
      (warmupStart s (min (R - s) M) (min (R - s) M)) (warmup R M s) :=
    Slot.flatMap_range _ (warmupStart_mono s _) fun f hf => warmupSteps_slot hf (by omega)
  have hs : Slot R (8 * (4 * 0 + (4 * R - 2 * s)))
      (8 * (4 * (M - (R - s)) + (4 * R - 2 * s))) (steady R M s) :=
    Slot.flatMap_range (fun i => 8 * (4 * i + (4 * R - 2 * s)))
      (fun a b hab => by simp only; omega) fun i _ => steadySteps_slot h
  have hc : Slot R (8 * (4 * (M - (R - s) + 0) + (4 * R - 2 * s)))
      (8 * (4 * (M - (R - s) + min (R - s) M) + (4 * R - 2 * s))) (cooldown R M s) :=
    Slot.flatMap_range (fun i => 8 * (4 * (M - (R - s) + i) + (4 * R - 2 * s)))
      (fun a b hab => by simp only; omega) fun i _ => cooldownSteps_slot h
  have hstart : warmupStart s (min (R - s) M) (min (R - s) M) ≤ 8 * (4 * R - 2 * s) := by
    unfold warmupStart; rw [if_neg (lt_irrefl _)]; omega
  have hwe := hw.append (early_slot h hM) (warmupStart_mono s _ (Nat.zero_le _)) hstart
  have hlo := (warmupStart_mono s (min (R - s) M) (Nat.zero_le (min (R - s) M))).trans hstart
  rw [stageOrder_eq]
  exact ((hwe.append (hs.mono (by omega) le_rfl) hlo (by omega)).append
    (hc.mono (by omega) le_rfl) (by omega) (by omega)).1

end Sorted

/-! ### Which steps a stage runs -/

/-- The kinds of step stage `s` runs: only inner boundaries of the pipeline have transfers. -/
def Kind (R s : ℕ) : MetaStepType → Prop
  | .dataLoad => True
  | .fwd => True
  | .bwd => True
  | .dataRecv => s ≠ 0
  | .fwdRecv => s ≠ 0
  | .bwdSend => s ≠ 0
  | .dataSend => s ≠ R - 1
  | .fwdSend => s ≠ R - 1
  | .bwdRecv => s ≠ R - 1
  | _ => False

/-- A step of stage `s`. -/
def Belongs (R M s : ℕ) (x : LeafStep) : Prop :=
  x.stageIndex = s ∧ x.microIndex < M ∧ Kind R s x.type

section Membership

variable {R M s m : ℕ} {x : LeafStep}

theorem warmupSteps_belongs {w f : ℕ} (hf : f < w) (hR : w + s ≤ R) (hM : w ≤ M) :
    ∀ x ∈ warmupSteps s w f, Belongs R M s x := by
  unfold warmupSteps Belongs
  split_ifs <;> simp [Kind] <;> omega

theorem early_belongs (hM : 0 < M) : ∀ x ∈ early R M s, Belongs R M s x := by
  unfold early Belongs
  split_ifs
  · simp [Kind]
    omega
  · simp

theorem steadySteps_belongs {i : ℕ} (h : s < R) (hi : i < M - (R - s)) :
    ∀ x ∈ steadySteps R s (R - s + i) i, Belongs R M s x := by
  unfold steadySteps Belongs
  split_ifs <;> simp [Kind] <;> omega

theorem cooldownSteps_belongs {f i : ℕ} (hf : f ≤ M + 1) (hi : i < min (R - s) M) :
    ∀ x ∈ cooldownSteps R M (min (R - s) M) s f (M - (R - s) + i), Belongs R M s x := by
  unfold cooldownSteps Belongs
  split_ifs <;> simp [Kind] <;> omega

theorem belongs_of_mem (h : s < R) (hM : 0 < M) (hx : x ∈ constructStageOrder R M s) :
    Belongs R M s x := by
  rw [stageOrder_eq] at hx
  simp only [List.mem_append, warmup, steady, cooldown, List.mem_flatMap, List.mem_range] at hx
  rcases hx with ((⟨f, hf, hx⟩ | hx) | ⟨i, hi, hx⟩) | ⟨i, hi, hx⟩
  · exact warmupSteps_belongs hf (by omega) (by omega) x hx
  · exact early_belongs hM x hx
  · exact steadySteps_belongs h hi x hx
  · exact cooldownSteps_belongs (by split_ifs <;> omega) hi x hx

theorem mem_warmup (hm : m < min (R - s) M) (hx : x ∈ warmupSteps s (min (R - s) M) m) :
    x ∈ constructStageOrder R M s := by
  rw [stageOrder_eq]
  simp only [List.mem_append, warmup, List.mem_flatMap, List.mem_range]
  exact Or.inl (Or.inl (Or.inl ⟨m, hm, hx⟩))

theorem mem_early (hx : x ∈ early R M s) : x ∈ constructStageOrder R M s := by
  rw [stageOrder_eq]
  simp only [List.mem_append]
  exact Or.inl (Or.inl (Or.inr hx))

theorem mem_steady {i : ℕ} (hi : i < M - (R - s)) (hx : x ∈ steadySteps R s (R - s + i) i) :
    x ∈ constructStageOrder R M s := by
  rw [stageOrder_eq]
  simp only [List.mem_append, steady, List.mem_flatMap, List.mem_range]
  exact Or.inl (Or.inr ⟨i, hi, hx⟩)

theorem mem_cooldown {i : ℕ} (hi : i < min (R - s) M)
    (hx : x ∈ cooldownSteps R M (min (R - s) M) s (if R - s > M then M + 1 else M)
      (M - (R - s) + i)) : x ∈ constructStageOrder R M s := by
  rw [stageOrder_eq]
  simp only [List.mem_append, cooldown, List.mem_flatMap, List.mem_range]
  exact Or.inr ⟨i, hi, hx⟩

/-- A forward, its input and its data: in the warm-up if there is room, else in the steady
phase. -/
theorem mem_forward {ty : MetaStepType} (hm : m < M)
    (hty : ty = .dataLoad ∨ ty = .fwd ∨ s ≠ 0 ∧ (ty = .dataRecv ∨ ty = .fwdRecv)) :
    ⟨m, ty, s⟩ ∈ constructStageOrder R M s := by
  by_cases hw : m < min (R - s) M
  · refine mem_warmup hw ?_
    unfold warmupSteps
    rcases hty with rfl | rfl | ⟨hs, rfl | rfl⟩
    · simp
    · split_ifs <;> simp
    · simp [hs]
    · simp [hs]
  · have hi : m - (R - s) < M - (R - s) := by omega
    refine mem_steady hi ?_
    have hf : R - s + (m - (R - s)) = m := by omega
    unfold steadySteps
    rw [hf]
    rcases hty with rfl | rfl | ⟨hs, rfl | rfl⟩
    · simp
    · simp
    · simp [hs]
    · simp [hs]

/-- A backward and its transfers: in the steady phase if there is one, else in the cool-down. -/
theorem mem_backward {ty : MetaStepType} (hm : m < M)
    (hty : ty = .bwd ∨ s ≠ 0 ∧ ty = .bwdSend ∨ s ≠ R - 1 ∧ ty = .bwdRecv) :
    ⟨m, ty, s⟩ ∈ constructStageOrder R M s := by
  by_cases hi : m < M - (R - s)
  · refine mem_steady hi ?_
    unfold steadySteps
    rcases hty with rfl | ⟨hs, rfl⟩ | ⟨hs, rfl⟩
    · simp
    · simp [hs]
    · simp [hs]
  · have hc : m - (M - (R - s)) < min (R - s) M := by omega
    refine mem_cooldown hc ?_
    have hj : M - (R - s) + (m - (M - (R - s))) = m := by omega
    unfold cooldownSteps
    rw [hj]
    rcases hty with rfl | ⟨hs, rfl⟩ | ⟨hs, rfl⟩
    · simp
    · simp [hs]
    · simp [hs]

/-- A forward is sent in its own warm-up round at an even stage, in the next one at an odd
stage; the last forward of the warm-up waits for the steady phase or the cool-down, or is sent
early. -/
theorem mem_forwardSend {ty : MetaStepType} (h : s < R) (hm : m < M) (hs : s ≠ R - 1)
    (hty : ty = .dataSend ∨ ty = .fwdSend) : ⟨m, ty, s⟩ ∈ constructStageOrder R M s := by
  rcases Nat.lt_or_ge (m + 1) (min (R - s) M) with hw | hw
  · rcases Nat.mod_two_eq_zero_or_one s with hpar | hpar
    · refine mem_warmup (m := m) (by omega) ?_
      have hne : m ≠ min (R - s) M - 1 := by omega
      unfold warmupSteps
      rw [if_pos hpar, if_pos hne]
      rcases hty with rfl | rfl <;> simp
    · refine mem_warmup hw ?_
      have hodd : ¬ s % 2 = 0 := by omega
      unfold warmupSteps
      rw [if_neg hodd]
      rcases hty with rfl | rfl <;> simp
  · by_cases hlt : R - s > M
    · refine mem_early ?_
      have : m = M - 1 := by omega
      unfold early
      rw [if_pos hlt]
      rcases hty with rfl | rfl <;> simp [this]
    · by_cases hi : m + 1 < M
      · refine mem_steady (i := m + 1 - (R - s)) (by omega) ?_
        have hf : R - s + (m + 1 - (R - s)) - 1 = m := by omega
        unfold steadySteps
        rw [if_pos hs, hf]
        rcases hty with rfl | rfl <;> simp
      · refine mem_cooldown (i := 0) (by omega) ?_
        have hguard : M - (R - s) + 0 = M - min (R - s) M ∧ M ≤ M := by omega
        have hlast : M - 1 = m := by omega
        unfold cooldownSteps
        rw [if_neg hlt, if_pos hs, if_pos hguard, hlast]
        rcases hty with rfl | rfl <;> simp

/-- A stage runs exactly the steps that belong to it. -/
theorem mem_stageOrder (h : s < R) (hM : 0 < M) :
    x ∈ constructStageOrder R M s ↔ Belongs R M s x := by
  refine ⟨belongs_of_mem h hM, ?_⟩
  obtain ⟨m, ty, s'⟩ := x
  rintro ⟨rfl, hm, hk⟩
  cases ty with
  | dataLoad => exact mem_forward hm (by simp)
  | fwd => exact mem_forward hm (by simp)
  | dataRecv => exact mem_forward hm (by simpa [Kind] using hk)
  | fwdRecv => exact mem_forward hm (by simpa [Kind] using hk)
  | bwd => exact mem_backward hm (by simp)
  | bwdSend => exact mem_backward hm (by simpa [Kind] using hk)
  | bwdRecv => exact mem_backward hm (by simpa [Kind] using hk)
  | dataSend => exact mem_forwardSend h hm hk (by simp)
  | fwdSend => exact mem_forwardSend h hm hk (by simp)
  | _ => exact absurd hk id

end Membership

/-! ### The network of all ranks -/

/-- The ranks with the times of their steps. -/
def timedTransport (R M : ℕ) (dataIterator : Bool) : TimedNet ℕ Message LeafStep := fun rank =>
  if rank < R then
    (constructStageOrder R M rank).map fun x => (time R x, x.toOp R dataIterator)
  else []

theorem leaves_constructExecOrder (R M s : ℕ) :
    (constructExecOrder R M s).leaves = constructStageOrder R M s := by
  unfold constructExecOrder
  induction constructStageOrder R M s with
  | nil => rfl
  | cons x l ih => simp [MetaStep.leaves, ih]

theorem erase_timedTransport (R M : ℕ) (dataIterator : Bool) :
    erase (timedTransport R M dataIterator) =
      transport R dataIterator (constructExecOrder R M) := by
  funext rank
  unfold erase timedTransport transport
  rw [leaves_constructExecOrder]
  split_ifs <;> simp

theorem mem_timedTransport {R M p t : ℕ} {dataIterator : Bool} {o : Op ℕ Message LeafStep}
    (hM : 0 < M) : (t, o) ∈ timedTransport R M dataIterator p ↔
      p < R ∧ ∃ x, Belongs R M p x ∧ time R x = t ∧ x.toOp R dataIterator = o := by
  unfold timedTransport
  split_ifs with hp
  · simp only [List.mem_map, Prod.mk.injEq, mem_stageOrder hp hM, hp, true_and]
  · simp [hp]

/-- The step at the other end of a transfer. -/
def twin (x : LeafStep) : LeafStep :=
  match x.type with
  | .fwdSend => ⟨x.microIndex, .fwdRecv, x.stageIndex + 1⟩
  | .fwdRecv => ⟨x.microIndex, .fwdSend, x.stageIndex - 1⟩
  | .bwdSend => ⟨x.microIndex, .bwdRecv, x.stageIndex - 1⟩
  | .bwdRecv => ⟨x.microIndex, .bwdSend, x.stageIndex + 1⟩
  | .dataSend => ⟨x.microIndex, .dataRecv, x.stageIndex + 1⟩
  | .dataRecv => ⟨x.microIndex, .dataSend, x.stageIndex - 1⟩
  | _ => x

/-- A send of rank `p` to rank `q`: the twin belongs to `q`, carries the same time, and receives
the message from `p`. -/
theorem twin_of_send {R M p q : ℕ} {m : Message} {dataIterator : Bool} {x : LeafStep} (hp : p < R)
    (hx : Belongs R M p x) (hop : x.toOp R dataIterator = .send q m) :
    q < R ∧ Belongs R M q (twin x) ∧ time R (twin x) = time R x ∧
      (twin x).toOp R dataIterator = .recv p m := by
  obtain ⟨f, ty, s⟩ := x
  obtain ⟨hps, hf, hk⟩ := hx
  dsimp only at hps hf hk
  subst hps
  have hprev : (s - 1) % R = s - 1 := Nat.mod_eq_of_lt (by omega)
  have hself : s % R = s := Nat.mod_eq_of_lt hp
  cases ty with
  | fwdSend =>
    have hnext : (s + 1) % R = s + 1 := Nat.mod_eq_of_lt (by simp only [Kind] at hk; omega)
    simp only [LeafStep.toOp, hnext, Op.send.injEq] at hop
    obtain ⟨rfl, rfl⟩ := hop
    simp only [Kind] at hk
    exact ⟨by omega, ⟨rfl, hf, Nat.succ_ne_zero s⟩, rfl, by simp [twin, LeafStep.toOp, hself]⟩
  | bwdSend =>
    simp only [LeafStep.toOp, hprev, Op.send.injEq] at hop
    obtain ⟨rfl, rfl⟩ := hop
    simp only [Kind] at hk
    have hs : s - 1 + 1 = s := by omega
    refine ⟨by omega, ⟨rfl, hf, show s - 1 ≠ R - 1 by omega⟩, ?_, ?_⟩
    · simp [twin, time, hs]
    · simp [twin, LeafStep.toOp, hs, hself]
  | dataSend =>
    cases dataIterator with
    | false => simp [LeafStep.toOp] at hop
    | true =>
      have hnext : (s + 1) % R = s + 1 := Nat.mod_eq_of_lt (by simp only [Kind] at hk; omega)
      simp only [LeafStep.toOp, hnext, if_true, Op.send.injEq] at hop
      obtain ⟨rfl, rfl⟩ := hop
      simp only [Kind] at hk
      exact ⟨by omega, ⟨rfl, hf, Nat.succ_ne_zero s⟩, rfl, by simp [twin, LeafStep.toOp, hself]⟩
  | dataRecv => cases dataIterator <;> simp [LeafStep.toOp] at hop
  | _ => simp [LeafStep.toOp] at hop

/-- A receive of rank `q` from rank `p`, likewise. -/
theorem twin_of_recv {R M p q : ℕ} {m : Message} {dataIterator : Bool} {x : LeafStep} (hq : q < R)
    (hx : Belongs R M q x) (hop : x.toOp R dataIterator = .recv p m) :
    p < R ∧ Belongs R M p (twin x) ∧ time R (twin x) = time R x ∧
      (twin x).toOp R dataIterator = .send q m := by
  obtain ⟨f, ty, s⟩ := x
  obtain ⟨hps, hf, hk⟩ := hx
  dsimp only at hps hf hk
  subst hps
  have hprev : (s - 1) % R = s - 1 := Nat.mod_eq_of_lt (by omega)
  have hself : s % R = s := Nat.mod_eq_of_lt hq
  cases ty with
  | fwdRecv =>
    simp only [LeafStep.toOp, hprev, Op.recv.injEq] at hop
    obtain ⟨rfl, rfl⟩ := hop
    simp only [Kind] at hk
    have hs : s - 1 + 1 = s := by omega
    refine ⟨by omega, ⟨rfl, hf, show s - 1 ≠ R - 1 by omega⟩, ?_, ?_⟩
    · simp [twin, time, hs]
    · simp [twin, LeafStep.toOp, hs, hself]
  | bwdRecv =>
    have hnext : (s + 1) % R = s + 1 := Nat.mod_eq_of_lt (by simp only [Kind] at hk; omega)
    simp only [LeafStep.toOp, hnext, Op.recv.injEq] at hop
    obtain ⟨rfl, rfl⟩ := hop
    simp only [Kind] at hk
    exact ⟨by omega, ⟨rfl, hf, Nat.succ_ne_zero s⟩, rfl, by simp [twin, LeafStep.toOp, hself]⟩
  | dataRecv =>
    cases dataIterator with
    | false => simp [LeafStep.toOp] at hop
    | true =>
      simp only [LeafStep.toOp, hprev, if_true, Op.recv.injEq] at hop
      obtain ⟨rfl, rfl⟩ := hop
      simp only [Kind] at hk
      have hs : s - 1 + 1 = s := by omega
      refine ⟨by omega, ⟨rfl, hf, show s - 1 ≠ R - 1 by omega⟩, ?_, ?_⟩
      · simp [twin, time, hs]
      · simp [twin, LeafStep.toOp, hs, hself]
  | dataSend => cases dataIterator <;> simp [LeafStep.toOp] at hop
  | _ => simp [LeafStep.toOp] at hop

/-- All ranks together are a timed network. -/
theorem timed_timedTransport {R M : ℕ} (hM : 0 < M) (dataIterator : Bool) :
    Timed (timedTransport R M dataIterator) := by
  refine ⟨fun p => ?_, fun p q t m h => ?_, fun p q t m h => ?_⟩
  · unfold timedTransport
    split_ifs with hp
    · rw [List.pairwise_map]
      exact (stageOrder_sorted hp hM).imp fun hlt _ _ => hlt
    · exact List.Pairwise.nil
  · obtain ⟨hp, x, hx, ht, hop⟩ := (mem_timedTransport hM).1 h
    obtain ⟨hq, hx', ht', hop'⟩ := twin_of_send hp hx hop
    exact (mem_timedTransport hM).2 ⟨hq, twin x, hx', ht'.trans ht, hop'⟩
  · obtain ⟨hq, x, hx, ht, hop⟩ := (mem_timedTransport hM).1 h
    obtain ⟨hp, hx', ht', hop'⟩ := twin_of_recv hq hx hop
    exact (mem_timedTransport hM).2 ⟨hp, twin x, hx', ht'.trans ht, hop'⟩

/-! ### The schedule as a whole -/

/-- A step that belongs to a stage runs exactly once. -/
theorem count_of_belongs {R M s : ℕ} {x : LeafStep} (h : s < R) (hM : 0 < M)
    (hx : Belongs R M s x) : (constructExecOrder R M s).leaves.count x = 1 := by
  rw [leaves_constructExecOrder]
  refine List.count_eq_one_of_mem ?_ ((mem_stageOrder h hM).2 hx)
  exact (stageOrder_sorted h hM).imp fun hlt heq => by simp [heq] at hlt

theorem precedes_of_time {R M s : ℕ} {x y : LeafStep} (h : s < R) (hM : 0 < M)
    (hx : Belongs R M s x) (hxy : time R x < time R y) :
    Precedes (constructExecOrder R M s).leaves x y := by
  rw [leaves_constructExecOrder]
  exact precedes_of_lt (stageOrder_sorted h hM) ((mem_stageOrder h hM).2 hx) hxy

/-- `FWD_RECV`, `FWD`, `FWD_SEND` of a micro-batch are in this order of time. -/
theorem time_forward {R s m : ℕ} :
    time R ⟨m, .fwdRecv, s⟩ < time R ⟨m, .fwd, s⟩ ∧
      time R ⟨m, .fwd, s⟩ < time R ⟨m, .fwdSend, s⟩ := by
  simp only [time, fwdTime]
  split_ifs <;> omega

/-- `BWD_RECV`, `BWD`, `BWD_SEND` of a micro-batch are in this order of time, and its `FWD` is
before its `BWD`. -/
theorem time_backward {R s m : ℕ} (h : s < R) :
    time R ⟨m, .bwdRecv, s⟩ < time R ⟨m, .bwd, s⟩ ∧
      time R ⟨m, .bwd, s⟩ < time R ⟨m, .bwdSend, s⟩ ∧
      time R ⟨m, .fwd, s⟩ < time R ⟨m, .bwd, s⟩ := by
  simp only [time, fwdTime, bwdTime]
  split_ifs <;> omega

/-- The 1F1B schedule: every stage runs the steps of every micro-batch exactly once and in the
order of their data, what one rank sends another is what the other receives, and with blocking
sends and receives every interleaving of the ranks runs to the end. -/
theorem constructExecOrder_correct (R M : ℕ) (hM : 1 ≤ M) (dataIterator : Bool) :
    (∀ s < R, ∀ m < M,
      let order := (constructExecOrder R M s).leaves
      order.count ⟨m, .fwd, s⟩ = 1 ∧ order.count ⟨m, .bwd, s⟩ = 1 ∧
        Precedes order ⟨m, .fwd, s⟩ ⟨m, .bwd, s⟩ ∧
        (s ≠ 0 →
          order.count ⟨m, .fwdRecv, s⟩ = 1 ∧ Precedes order ⟨m, .fwdRecv, s⟩ ⟨m, .fwd, s⟩ ∧
          order.count ⟨m, .bwdSend, s⟩ = 1 ∧ Precedes order ⟨m, .bwd, s⟩ ⟨m, .bwdSend, s⟩) ∧
        (s ≠ R - 1 →
          order.count ⟨m, .fwdSend, s⟩ = 1 ∧ Precedes order ⟨m, .fwd, s⟩ ⟨m, .fwdSend, s⟩ ∧
          order.count ⟨m, .bwdRecv, s⟩ = 1 ∧ Precedes order ⟨m, .bwdRecv, s⟩ ⟨m, .bwd, s⟩)) ∧
    (∀ s < R, ∀ x ∈ (constructExecOrder R M s).leaves, Belongs R M s x) ∧
    (∀ p q, sendsTo q (transport R dataIterator (constructExecOrder R M) p) =
      recvsFrom p (transport R dataIterator (constructExecOrder R M) q)) ∧
    Matched (transport R dataIterator (constructExecOrder R M)) ∧
    Completes (transport R dataIterator (constructExecOrder R M)) := by
  have htimed := timed_timedTransport (R := R) hM dataIterator
  have hF : ∀ p ∉ Finset.range R, timedTransport R M dataIterator p = [] := fun p hp =>
    if_neg fun h => hp (Finset.mem_range.2 h)
  rw [← erase_timedTransport]
  refine ⟨fun s hs m hm => ?_, fun s hs x hx => ?_, htimed.sendsTo_eq_recvsFrom, htimed.matched,
    htimed.completes _ hF⟩
  · have hone : ∀ ty, Kind R s ty →
        (constructExecOrder R M s).leaves.count ⟨m, ty, s⟩ = 1 := fun ty hk =>
      count_of_belongs hs hM ⟨rfl, hm, hk⟩
    have hbefore : ∀ ty ty', Kind R s ty → time R ⟨m, ty, s⟩ < time R ⟨m, ty', s⟩ →
        Precedes (constructExecOrder R M s).leaves ⟨m, ty, s⟩ ⟨m, ty', s⟩ := fun ty ty' hk hlt =>
      precedes_of_time hs hM ⟨rfl, hm, hk⟩ hlt
    obtain ⟨hrecv, hsend⟩ := time_forward (R := R) (s := s) (m := m)
    obtain ⟨hrecv', hsend', hfb⟩ := time_backward (m := m) hs
    exact ⟨hone _ trivial, hone _ trivial, hbefore _ _ trivial hfb,
      fun h0 => ⟨hone _ h0, hbefore _ _ h0 hrecv, hone _ h0, hbefore _ _ trivial hsend'⟩,
      fun hl => ⟨hone _ hl, hbefore _ _ trivial hsend, hone _ hl, hbefore _ _ hl hrecv'⟩⟩
  · rw [leaves_constructExecOrder] at hx
    exact (mem_stageOrder hs hM).1 hx

theorem constructExecOrder_correct_three_two :
    1 ≤ 2 ∧ (constructExecOrder 3 2 1).leaves.count ⟨1, .fwd, 1⟩ = 1 ∧
      Completes (transport 3 true (constructExecOrder 3 2)) :=
  ⟨by decide, ((constructExecOrder_correct 3 2 (by decide) true).1 1 (by decide) 1
      (by decide)).1, (constructExecOrder_correct 3 2 (by decide) true).2.2.2.2⟩

end HyperParallel.Pipeline.Schedule1F1B

import HyperParallel.Lib.Cut
import HyperParallel.Pipeline.Interleaved
import Mathlib.Algebra.BigOperators.Intervals
import Mathlib.Tactic.Linarith

/-!
# The round layout of the interleaved schedule

An operation of a rank belongs to a round, a local stage and a position: `opAt ρ l p`.  This file
shows that `localIndex` and the per-stage counters compute exactly these coordinates.

* `roundSize`, `roundStart`: the micro-batches of a round, and those of the rounds before it;
* `localIndex_opAt`, `microIndex_opAt`: the local stage and the micro-batch of an operation;
* `exists_opAt`: every operation has coordinates;
* `slotOf`: the time slot of an operation in an order without steady state, with the bubbles that
  fill up a short batch.
-/

namespace HyperParallel.Pipeline.ScheduleInterleaved1F1B

variable (c : ScheduleInterleaved1F1B)

/-! ### Rounds -/

/-- The micro-batches of one round. -/
def roundSize (ρ : ℕ) : ℕ :=
  (if ρ < c.roundRemainder then (c.realStageNum : ℤ) + c.roundBase + 1
    else c.realStageNum + c.roundBase).toNat

/-- The micro-batches of the rounds before `ρ`. -/
def roundStart (ρ : ℕ) : ℕ := ∑ x ∈ Finset.range ρ, c.roundSize x

theorem roundStart_zero : c.roundStart 0 = 0 := rfl

theorem roundStart_succ (ρ : ℕ) : c.roundStart (ρ + 1) = c.roundStart ρ + c.roundSize ρ :=
  Finset.sum_range_succ _ ρ

theorem roundStart_mono : Monotone c.roundStart :=
  monotone_nat_of_le_succ fun ρ => by rw [roundStart_succ]; omega

theorem foldl_map_range (f : ℕ → ℕ) (n : ℕ) :
    ((List.range n).map f).foldl (· + ·) 0 = ∑ x ∈ Finset.range n, f x := by
  induction n with
  | zero => rfl
  | succ n ih => simp [List.range_succ, Finset.sum_range_succ, ← ih]

theorem scanl_map_range (f : ℕ → ℕ) (n : ℕ) :
    ((List.range n).map f).scanl (· + ·) 0 =
      (List.range (n + 1)).map fun k => ∑ x ∈ Finset.range k, f x := by
  induction n with
  | zero => simp
  | succ n ih =>
    rw [List.range_succ, List.map_append, List.scanl_append, ih, List.range_succ (n := n + 1),
      foldl_map_range]
    simp [Finset.sum_range_succ]

theorem accu_eq : c.nMicrobatchPerRoundAccu =
    (List.range (c.nRounds + 1)).map fun ρ => c.roundStart ρ * c.nLocalStages := by
  have h : c.nMicrobatchPerRound = (List.range c.nRounds).map c.roundSize := rfl
  unfold nMicrobatchPerRoundAccu accumulate
  rw [h, scanl_map_range, List.range_succ_eq_map]
  simp [roundStart]

theorem nMicrobatchPerRound_getD {ρ : ℕ} (h : ρ < c.nRounds) :
    c.nMicrobatchPerRound.getD ρ 0 = c.roundSize ρ := by
  simp [nMicrobatchPerRound, roundSize, List.getD_eq_getElem?_getD, h]

/-- `bisect_right` finds the interval of a sorted list a number falls into. -/
theorem bisectRight_map_range {g : ℕ → ℕ} (hg : Monotone g) {N ρ x : ℕ} (hρ : ρ < N)
    (hlo : g ρ ≤ x) (hhi : x < g (ρ + 1)) :
    bisectRight ((List.range (N + 1)).map g) x = ρ + 1 := by
  obtain ⟨d, hd⟩ : ∃ d, N + 1 = (ρ + 1) + (d + 1) := ⟨N - (ρ + 1), by omega⟩
  have hsplit : List.range (N + 1) =
      List.range (ρ + 1) ++ (ρ + 1) :: (List.range d).map ((ρ + 1 + ·) ∘ Nat.succ) := by
    rw [hd, List.range_add, List.range_succ_eq_map (n := d), List.map_cons, List.map_map,
      Nat.add_zero]
  have hall : ∀ a ∈ (List.range (ρ + 1)).map g, decide (a ≤ x) = true := by
    simp only [List.mem_map, List.mem_range, decide_eq_true_eq, forall_exists_index, and_imp]
    rintro a y hy rfl
    exact (hg (Nat.lt_succ_iff.1 hy)).trans hlo
  unfold bisectRight
  rw [hsplit, List.map_append, List.takeWhile_append_of_pos hall, List.map_cons,
    List.takeWhile_cons_of_neg (by simpa using hhi)]
  simp

section Layout

variable {c} {ρ l p : ℕ}

/-- The operation at a position of a local stage in a round. -/
def opAt (c : ScheduleInterleaved1F1B) (ρ l p : ℕ) : ℕ :=
  c.roundStart ρ * c.nLocalStages + l * c.roundSize ρ + p

theorem opAt_lt (hl : l < c.nLocalStages) (hp : p < c.roundSize ρ) :
    c.opAt ρ l p < c.roundStart (ρ + 1) * c.nLocalStages := by
  have h : l * c.roundSize ρ + c.roundSize ρ ≤ c.nLocalStages * c.roundSize ρ := by
    rw [← Nat.succ_mul]; exact Nat.mul_le_mul_right _ hl
  rw [opAt, roundStart_succ, Nat.add_mul, Nat.mul_comm (c.roundSize ρ)]
  omega

theorem accuIndex_eq {k : ℕ} (hρ : ρ < c.nRounds) (hlo : c.roundStart ρ * c.nLocalStages ≤ k)
    (hhi : k < c.roundStart (ρ + 1) * c.nLocalStages) : c.accuIndex k = ρ := by
  have hmono : Monotone fun ρ => c.roundStart ρ * c.nLocalStages := fun a b h =>
    Nat.mul_le_mul_right _ (c.roundStart_mono h)
  unfold accuIndex
  rw [accu_eq, bisectRight_map_range hmono hρ hlo hhi, Nat.add_sub_cancel]

theorem localIndex_eq {k : ℕ} (hρ : ρ < c.nRounds) (hlo : c.roundStart ρ * c.nLocalStages ≤ k)
    (hhi : k < c.roundStart (ρ + 1) * c.nLocalStages) :
    c.localIndex k = (k - c.roundStart ρ * c.nLocalStages) / c.roundSize ρ := by
  unfold localIndex
  rw [accuIndex_eq hρ hlo hhi, nMicrobatchPerRound_getD c hρ, accu_eq]
  simp [List.getD_eq_getElem?_getD, hρ.le]

/-- `forward_stage_index` finds the local stage of an operation. -/
theorem localIndex_opAt (hρ : ρ < c.nRounds) (hl : l < c.nLocalStages) (hp : p < c.roundSize ρ) :
    c.localIndex (c.opAt ρ l p) = l := by
  have hlo : c.roundStart ρ * c.nLocalStages ≤ c.opAt ρ l p := by unfold opAt; omega
  rw [localIndex_eq hρ hlo (opAt_lt hl hp), opAt, Nat.add_assoc, Nat.add_sub_cancel_left,
    Nat.mul_comm, Nat.mul_add_div (by omega), Nat.div_eq_of_lt hp, Nat.add_zero]

end Layout

/-! ### Micro-batches -/

/-- Among the first `k` operations, those of the local stage `l`. -/
def opsBefore (l k : ℕ) : ℕ := (List.range k).countP (c.localIndex · = l)

/-- The micro-batch of an operation. -/
def microIndex (k : ℕ) : ℕ := c.opsBefore (c.localIndex k) k

section Micro

variable {c} {ρ l p : ℕ}

theorem opsBefore_succ (l k : ℕ) :
    c.opsBefore l (k + 1) = c.opsBefore l k + if c.localIndex k = l then 1 else 0 := by
  simp [opsBefore, List.range_succ, List.countP_append, List.countP_singleton]

/-- Within a round, the operations of a local stage are consecutive. -/
theorem opsBefore_round (hρ : ρ < c.nRounds) {r : ℕ} (hr : r ≤ c.roundSize ρ * c.nLocalStages) :
    c.opsBefore l (c.roundStart ρ * c.nLocalStages + r) =
      c.opsBefore l (c.roundStart ρ * c.nLocalStages) +
        min (r - l * c.roundSize ρ) (c.roundSize ρ) := by
  induction r with
  | zero => simp
  | succ r ih =>
    have hn : 0 < c.roundSize ρ := by
      by_contra h
      simp [Nat.eq_zero_of_not_pos h] at hr
    have hloc : c.localIndex (c.roundStart ρ * c.nLocalStages + r) = r / c.roundSize ρ := by
      rw [localIndex_eq hρ (by omega) (by rw [roundStart_succ, Nat.add_mul]; omega),
        Nat.add_sub_cancel_left]
    have hdiv : r / c.roundSize ρ = l ↔ l * c.roundSize ρ ≤ r ∧ r < l * c.roundSize ρ +
        c.roundSize ρ := by
      rw [Nat.div_eq_iff hn]
      omega
    rw [← Nat.add_assoc, opsBefore_succ, ih (by omega), hloc]
    simp only [hdiv]
    split_ifs <;> omega

theorem opsBefore_roundStart (hl : l < c.nLocalStages) (hρ : ρ ≤ c.nRounds) :
    c.opsBefore l (c.roundStart ρ * c.nLocalStages) = c.roundStart ρ := by
  induction ρ with
  | zero => simp [roundStart_zero, opsBefore]
  | succ ρ ih =>
    have h : l * c.roundSize ρ + c.roundSize ρ ≤ c.roundSize ρ * c.nLocalStages := by
      rw [← Nat.succ_mul, Nat.mul_comm (c.roundSize ρ)]; exact Nat.mul_le_mul_right _ hl
    rw [roundStart_succ, Nat.add_mul, opsBefore_round hρ le_rfl, ih (by omega)]
    omega

/-- The counters find the micro-batch of an operation. -/
theorem microIndex_opAt (hρ : ρ < c.nRounds) (hl : l < c.nLocalStages)
    (hp : p < c.roundSize ρ) : c.microIndex (c.opAt ρ l p) = c.roundStart ρ + p := by
  have h : l * c.roundSize ρ + c.roundSize ρ ≤ c.roundSize ρ * c.nLocalStages := by
    rw [← Nat.succ_mul, Nat.mul_comm (c.roundSize ρ)]; exact Nat.mul_le_mul_right _ hl
  unfold microIndex
  rw [localIndex_opAt hρ hl hp, opAt, Nat.add_assoc, opsBefore_round hρ (by omega),
    opsBefore_roundStart hl hρ.le]
  omega

end Micro

/-! ### Every operation has coordinates -/

section Sizes

variable {c} {ρ l p k : ℕ}

theorem nRounds_short (h : c.microBatchNum < c.realStageNum) : c.nRounds = 1 := by
  simp [nRounds, Nat.div_eq_of_lt h]

theorem roundSize_short (h : c.microBatchNum < c.realStageNum) :
    c.roundSize ρ = c.microBatchNum := by
  simp [roundSize, roundRemainder, roundBase, h]

theorem roundSize_long (h : c.realStageNum ≤ c.microBatchNum) : c.roundSize ρ =
    c.realStageNum + c.microBatchNum % c.realStageNum / c.nRounds +
      if ρ < c.microBatchNum % c.realStageNum % c.nRounds then 1 else 0 := by
  have h' : ¬ c.microBatchNum < c.realStageNum := by omega
  unfold roundSize roundRemainder roundBase
  simp only [h', if_false]
  generalize c.microBatchNum % c.realStageNum / c.nRounds = b
  split_ifs <;> omega

theorem roundSize_pos (hR : 0 < c.realStageNum) (hM : 0 < c.microBatchNum) :
    0 < c.roundSize ρ := by
  rcases Nat.lt_or_ge c.microBatchNum c.realStageNum with h | h
  · rwa [roundSize_short h]
  · rw [roundSize_long h, Nat.add_assoc]
    exact Nat.add_pos_left hR _

/-- The first round is the longest. -/
theorem roundSize_le : c.roundSize ρ ≤ c.roundSize 0 := by
  rcases Nat.lt_or_ge c.microBatchNum c.realStageNum with h | h
  · rw [roundSize_short h, roundSize_short h]
  · rw [roundSize_long h, roundSize_long h]
    split_ifs <;> omega

/-- A round with its bubbles is at least as long as the pipeline. -/
theorem le_roundSize_add : c.realStageNum ≤ c.roundSize ρ + c.trailingBubble := by
  rcases Nat.lt_or_ge c.microBatchNum c.realStageNum with h | h
  · rw [roundSize_short h, trailingBubble]; omega
  · rw [roundSize_long h, Nat.add_assoc, Nat.add_assoc]
    exact Nat.le_add_right _ _

/-- The rounds hold the whole batch. -/
theorem roundStart_nRounds (hR : 0 < c.realStageNum) :
    c.roundStart c.nRounds = c.microBatchNum := by
  rcases Nat.lt_or_ge c.microBatchNum c.realStageNum with h | h
  · rw [nRounds_short h, roundStart_succ, roundStart_zero, roundSize_short h, Nat.zero_add]
  · have hclosed : ∀ ρ, c.roundStart ρ =
        ρ * (c.realStageNum + c.microBatchNum % c.realStageNum / c.nRounds) +
          min ρ (c.microBatchNum % c.realStageNum % c.nRounds) := by
      intro ρ
      induction ρ with
      | zero => simp [roundStart_zero]
      | succ ρ ih =>
        rw [roundStart_succ, ih, roundSize_long h, Nat.succ_mul]
        split_ifs <;> omega
    have hn : c.nRounds = c.microBatchNum / c.realStageNum := by
      unfold nRounds
      exact max_eq_right (Nat.div_pos h hR)
    have hpos : 0 < c.nRounds := hn ▸ Nat.div_pos h hR
    have hrem := Nat.mod_lt (c.microBatchNum % c.realStageNum) hpos
    have h1 := Nat.div_add_mod (c.microBatchNum % c.realStageNum) c.nRounds
    have h2 := Nat.div_add_mod c.microBatchNum c.realStageNum
    rw [hclosed, min_eq_right hrem.le, Nat.mul_add, Nat.add_assoc, h1, hn, Nat.mul_comm, h2]

theorem exists_round (hR : 0 < c.realStageNum) {m : ℕ} (hm : m < c.microBatchNum) :
    ∃ ρ < c.nRounds, ∃ p < c.roundSize ρ, m = c.roundStart ρ + p := by
  rw [← roundStart_nRounds hR] at hm
  obtain ⟨ρ, hρ, hlo, hhi⟩ := exists_interval (Nat.zero_le m) hm
  rw [roundStart_succ] at hhi
  exact ⟨ρ, hρ, m - c.roundStart ρ, by omega, by omega⟩

/-- Every operation of a rank has coordinates. -/
theorem exists_opAt (hR : 0 < c.realStageNum) (hk : k < c.nLocalStages * c.microBatchNum) :
    ∃ ρ < c.nRounds, ∃ l < c.nLocalStages, ∃ p < c.roundSize ρ, k = c.opAt ρ l p := by
  rw [Nat.mul_comm, ← roundStart_nRounds hR] at hk
  obtain ⟨ρ, hρ, hlo, hhi⟩ := exists_interval (g := fun ρ => c.roundStart ρ * c.nLocalStages)
    (by simp [roundStart_zero]) hk
  have hr : k - c.roundStart ρ * c.nLocalStages < c.roundSize ρ * c.nLocalStages := by
    rw [roundStart_succ, Nat.add_mul] at hhi
    omega
  have hn : 0 < c.roundSize ρ := by
    by_contra h
    simp [Nat.eq_zero_of_not_pos h] at hr
  refine ⟨ρ, hρ, _, Nat.div_lt_of_lt_mul hr, _,
    Nat.mod_lt (k - c.roundStart ρ * c.nLocalStages) hn, ?_⟩
  have := Nat.div_add_mod' (k - c.roundStart ρ * c.nLocalStages) (c.roundSize ρ)
  unfold opAt
  omega

theorem opAt_lt_total (hR : 0 < c.realStageNum) (hρ : ρ < c.nRounds) (hl : l < c.nLocalStages)
    (hp : p < c.roundSize ρ) : c.opAt ρ l p < c.nLocalStages * c.microBatchNum := by
  refine (opAt_lt hl hp).trans_le ?_
  rw [Nat.mul_comm, ← roundStart_nRounds hR]
  exact Nat.mul_le_mul_left _ (c.roundStart_mono hρ)

/-- The position of a micro-batch is determined by its number. -/
theorem round_unique {ρ' p' : ℕ} (hp : p < c.roundSize ρ) (hp' : p' < c.roundSize ρ')
    (h : c.roundStart ρ + p = c.roundStart ρ' + p') : ρ = ρ' ∧ p = p' := by
  rcases lt_trichotomy ρ ρ' with hlt | rfl | hlt
  · have := c.roundStart_mono (Nat.succ_le_of_lt hlt)
    rw [Nat.succ_eq_add_one, roundStart_succ] at this
    omega
  · exact ⟨rfl, by omega⟩
  · have := c.roundStart_mono (Nat.succ_le_of_lt hlt)
    rw [Nat.succ_eq_add_one, roundStart_succ] at this
    omega

/-- Two operations of one local stage with one micro-batch are the same. -/
theorem op_unique (hR : 0 < c.realStageNum) {k' : ℕ} (hk : k < c.nLocalStages * c.microBatchNum)
    (hk' : k' < c.nLocalStages * c.microBatchNum) (hl : c.localIndex k = c.localIndex k')
    (hm : c.microIndex k = c.microIndex k') : k = k' := by
  obtain ⟨ρ, hρ, l, hlV, p, hp, rfl⟩ := exists_opAt hR hk
  obtain ⟨ρ', hρ', l', hlV', p', hp', rfl⟩ := exists_opAt hR hk'
  rw [localIndex_opAt hρ hlV hp, localIndex_opAt hρ' hlV' hp'] at hl
  rw [microIndex_opAt hρ hlV hp, microIndex_opAt hρ' hlV' hp'] at hm
  obtain ⟨rfl, rfl⟩ := round_unique hp hp' hm
  rw [hl]

theorem localIndex_lt (hR : 0 < c.realStageNum) (hk : k < c.nLocalStages * c.microBatchNum) :
    c.localIndex k < c.nLocalStages := by
  obtain ⟨ρ, hρ, l, hl, p, hp, rfl⟩ := exists_opAt hR hk
  rwa [localIndex_opAt hρ hl hp]

theorem microIndex_lt (hR : 0 < c.realStageNum) (hk : k < c.nLocalStages * c.microBatchNum) :
    c.microIndex k < c.microBatchNum := by
  obtain ⟨ρ, hρ, l, hl, p, hp, rfl⟩ := exists_opAt hR hk
  rw [microIndex_opAt hρ hl hp, ← roundStart_nRounds hR]
  have := c.roundStart_mono (Nat.succ_le_of_lt hρ)
  rw [Nat.succ_eq_add_one, roundStart_succ] at this
  omega

end Sizes

/-! ### Time slots -/

/-- The slot of the `k`-th operation when every chunk of a short batch is filled up to the length
of the pipeline. -/
def slotOf (k : ℕ) : ℕ := k + c.trailingBubble * (k / c.microBatchNum)

section Slots

variable {c} {ρ l p k : ℕ}

theorem slotOf_long (h : c.realStageNum ≤ c.microBatchNum) : c.slotOf k = k := by
  simp [slotOf, trailingBubble, Nat.sub_eq_zero_of_le h]

theorem slotOf_opAt (hρ : ρ < c.nRounds) (hp : p < c.roundSize ρ) :
    c.slotOf (c.opAt ρ l p) =
      c.roundStart ρ * c.nLocalStages + l * (c.roundSize ρ + c.trailingBubble) + p := by
  rcases Nat.lt_or_ge c.microBatchNum c.realStageNum with h | h
  · rw [nRounds_short h, Nat.lt_one_iff] at hρ
    subst hρ
    rw [roundSize_short h] at hp
    have hdiv : c.opAt 0 l p / c.microBatchNum = l := by
      rw [opAt, roundStart_zero, roundSize_short h, Nat.zero_mul, Nat.zero_add, Nat.mul_comm,
        Nat.mul_add_div (by omega), Nat.div_eq_of_lt hp, Nat.add_zero]
    rw [slotOf, hdiv, opAt, Nat.mul_add, Nat.mul_comm c.trailingBubble]
    omega
  · rw [slotOf_long h, opAt, trailingBubble, Nat.sub_eq_zero_of_le h, Nat.add_zero]

theorem microIndex_short (hR : 0 < c.realStageNum) (h : c.microBatchNum < c.realStageNum)
    (hk : k < c.nLocalStages * c.microBatchNum) : c.microIndex k = k % c.microBatchNum := by
  obtain ⟨ρ, hρ, l, hl, p, hp, rfl⟩ := exists_opAt hR hk
  rw [microIndex_opAt hρ hl hp]
  rw [nRounds_short h, Nat.lt_one_iff] at hρ
  subst hρ
  rw [roundSize_short h] at hp
  rw [opAt, roundStart_zero, roundSize_short h, Nat.zero_mul, Nat.zero_add, Nat.zero_add,
    Nat.mul_comm, Nat.mul_add_mod, Nat.mod_eq_of_lt hp]

/-- One slot for the operation, and the bubbles at the end of a short chunk. -/
theorem slotOf_succ (hR : 0 < c.realStageNum) (hk : k < c.nLocalStages * c.microBatchNum) :
    c.slotOf (k + 1) =
      c.slotOf k + 1 + if c.EndsChunk (c.microIndex k) then c.trailingBubble else 0 := by
  rcases Nat.lt_or_ge c.microBatchNum c.realStageNum with h | h
  · have hM : 0 < c.microBatchNum := by
      by_contra hM
      simp [Nat.eq_zero_of_not_pos hM] at hk
    have hshort : c.shortMicro = true := by simp [shortMicro, h]
    simp only [EndsChunk, hshort, true_and, microIndex_short hR h hk, slotOf, Nat.succ_div,
      Nat.dvd_iff_mod_eq_zero]
    have hmod : (k + 1) % c.microBatchNum = 0 ↔ k % c.microBatchNum = c.microBatchNum - 1 := by
      obtain ⟨M, hM'⟩ := Nat.exists_eq_succ_of_ne_zero hM.ne'
      rw [hM']
      exact Nat.succ_mod_succ_eq_zero_iff
    simp only [hmod]
    split_ifs <;> simp [Nat.mul_add] <;> omega
  · have hb : c.trailingBubble = 0 := Nat.sub_eq_zero_of_le h
    simp [slotOf_long h, hb]

end Slots

/-! ### The steps of a rank -/

section Steps

variable {c} {i k : ℕ}

theorem fwdStep_eq (hR : 0 < c.realStageNum) (i k : ℕ) : c.fwdStep i k =
    ⟨c.microIndex k, .fwd, c.localIndex k * c.realStageNum + i⟩ := by
  have h : ∀ k', c.forwardStageIndex k' i = c.forwardStageIndex k i ↔
      c.localIndex k' = c.localIndex k := fun k' => by
    simp [forwardStageIndex, hR.ne']
  simp only [fwdStep, tally, microIndex, opsBefore, h]
  rfl

theorem bwdStep_eq (hR : 0 < c.realStageNum) (i : ℕ) {j : ℕ}
    (hj : j < c.nLocalStages * c.microBatchNum) : c.bwdStep i j =
    ⟨c.microIndex j, .bwd,
      (c.nLocalStages - 1 - c.localIndex j) * c.realStageNum + i⟩ := by
  have h : ∀ j' ∈ List.range j, (c.backwardStageIndex j' i = c.backwardStageIndex j i ↔
      c.localIndex j' = c.localIndex j) := fun j' hj' => by
    have h1 := localIndex_lt hR (Nat.lt_trans (List.mem_range.1 hj') hj)
    have h2 := localIndex_lt hR hj
    simp only [backwardStageIndex, Nat.add_right_cancel_iff, Nat.mul_left_inj hR.ne']
    omega
  have hcount : (List.range j).countP (c.backwardStageIndex · i = c.backwardStageIndex j i) =
      (List.range j).countP (c.localIndex · = c.localIndex j) :=
    List.countP_congr fun j' hj' => by simpa using h j' hj'
  simp only [bwdStep, tally, microIndex, opsBefore, hcount]
  rfl

/-! ### The length of the phases -/

theorem nRounds_pos : 0 < c.nRounds := by
  unfold nRounds
  omega

theorem roundSize_zero_le (hR : 0 < c.realStageNum) : c.roundSize 0 ≤ c.microBatchNum := by
  have h := c.roundStart_mono (show 1 ≤ c.nRounds from nRounds_pos)
  rwa [roundStart_nRounds hR, roundStart_succ, roundStart_zero, Nat.zero_add] at h

/-- A batch of one round, or one that is longer than every stagger. -/
theorem roundSize_zero_or (hR : 0 < c.realStageNum) :
    c.roundSize 0 = c.microBatchNum ∨ 2 * c.realStageNum ≤ c.microBatchNum := by
  rcases Nat.lt_or_ge 1 c.nRounds with h | h
  · right
    unfold nRounds at h
    have h2 : 2 ≤ c.microBatchNum / c.realStageNum := by omega
    exact (Nat.mul_comm _ _).trans_le ((Nat.le_div_iff_mul_le hR).1 h2 |>.trans' (by omega))
  · left
    have h1 : c.nRounds = 1 := by have := nRounds_pos (c := c); omega
    have hsum := roundStart_nRounds hR
    rwa [h1, roundStart_succ, roundStart_zero, Nat.zero_add] at hsum

theorem stagger_le (i : ℕ) : c.stagger i ≤ 2 * (c.realStageNum - 1) := by
  unfold stagger
  split_ifs <;> omega

/-- The warm-up: a forward of every chunk but the last, and the stagger. -/
theorem warmupOps_eq (hR : 0 < c.realStageNum) (hV : 0 < c.nLocalStages) (i : ℕ) :
    c.warmupOps i =
      (c.nLocalStages - 1) * c.roundSize 0 + min (c.stagger i) c.microBatchNum := by
  have htotal : c.microBatchNum * c.nLocalStages =
      (c.nLocalStages - 1) * c.microBatchNum + c.microBatchNum := by
    rw [← Nat.succ_mul, Nat.mul_comm]
    congr 1
    omega
  have hle : (c.nLocalStages - 1) * c.roundSize 0 ≤ (c.nLocalStages - 1) * c.microBatchNum :=
    Nat.mul_le_mul_left _ (roundSize_zero_le hR)
  unfold warmupOps
  rw [nMicrobatchPerRound_getD c nRounds_pos, htotal]
  rcases roundSize_zero_or hR with h | h
  · rw [h]
    omega
  · have := c.stagger_le i
    omega

/-- The slots of the warm-up with all its bubbles. -/
def warmupSlots (c : ScheduleInterleaved1F1B) (i : ℕ) : ℕ :=
  (c.nLocalStages - 1) * (c.roundSize 0 + c.trailingBubble) + c.stagger i

theorem warmupSlots_eq (hR : 0 < c.realStageNum) (hV : 0 < c.nLocalStages) (i : ℕ) :
    c.warmupSlots i = c.warmupOps i + (c.nLocalStages - 1) * c.trailingBubble +
      (c.stagger i - c.microBatchNum) := by
  rw [warmupSlots, warmupOps_eq hR hV, Nat.mul_add]
  omega

end Steps

end HyperParallel.Pipeline.ScheduleInterleaved1F1B

import HyperParallel.Pipeline.InterleavedRounds

/-!
# The time columns of the interleaved schedule

`add_send_recv` walks over the orders of all ranks column by column.  This file says in which
column every forward and every backward of a rank stands.

* `fwdColumn`, `bwdColumn`: the columns in closed form;
* `item_warmup`, `item_steady`, `item_overlap`, `item_cooldown`: the items of the expanded order;
* `subStep_fwdColumn`, `subStep_bwdColumn`: the column whose transfers are those of a step;
* `emit_fwdColumn`, `emit_bwdColumn`: the column in which a step is appended; the forward of an
  `OVERLAP_B_F` stands one column before its own.
-/

namespace HyperParallel.Pipeline.ScheduleInterleaved1F1B

/-! ### Positions in a list of blocks -/

section Blocks

variable {α : Type*} {g : ℕ → List α} {L : ℕ → ℕ} {n : ℕ}

theorem length_flatMap_range (h0 : L 0 = 0) (hL : ∀ k < n, L (k + 1) = L k + (g k).length) :
    ((List.range n).flatMap g).length = L n := by
  induction n with
  | zero => exact h0.symm
  | succ n ih =>
    rw [List.range_succ, List.flatMap_append, List.length_append, ih fun k hk => hL k (by omega),
      hL n (by omega), List.flatMap_singleton]

theorem getElem?_flatMap_range (h0 : L 0 = 0) (hL : ∀ k < n, L (k + 1) = L k + (g k).length)
    {k r : ℕ} (hk : k < n) (hr : r < (g k).length) :
    ((List.range n).flatMap g)[L k + r]? = (g k)[r]? := by
  induction n with
  | zero => omega
  | succ n ih =>
    have hlen : ((List.range n).flatMap g).length = L n :=
      length_flatMap_range h0 fun k hk => hL k (by omega)
    rw [List.range_succ, List.flatMap_append, List.flatMap_singleton]
    rcases Nat.lt_succ_iff_lt_or_eq.1 hk with hlt | rfl
    · have hin := ih (fun k hk => hL k (by omega)) hlt
      have hbound : L k + r < ((List.range n).flatMap g).length := by
        have := List.getElem?_eq_getElem hr
        rw [← hin] at this
        exact (List.getElem?_eq_some_iff.1 this).1
      rw [List.getElem?_append_left hbound, hin]
    · rw [List.getElem?_append_right (by omega), hlen, Nat.add_sub_cancel_left]

theorem getElem?_append_add {l : List α} (l' : List α) {m : ℕ} (h : l.length = m) (t : ℕ) :
    (l ++ l')[m + t]? = l'[t]? := by
  rw [List.getElem?_append_right (by omega), h, Nat.add_sub_cancel_left]

theorem getElem?_append_of_some {l l' : List α} {t : ℕ} {x : α} (h : l[t]? = some x) :
    (l ++ l')[t]? = some x := by
  rw [List.getElem?_append_left (List.getElem?_eq_some_iff.1 h).1, h]

end Blocks

/-- The assumptions under which a schedule is built. -/
structure Valid (c : ScheduleInterleaved1F1B) : Prop where
  realStageNum_pos : 0 < c.realStageNum
  nLocalStages_pos : 0 < c.nLocalStages
  microBatchNum_pos : 0 < c.microBatchNum

/-- The operations of the last chunk come on top of those of the others. -/
theorem Valid.lastChunk {c : ScheduleInterleaved1F1B} (hc : c.Valid) :
    c.nLocalStages * c.microBatchNum =
      (c.nLocalStages - 1) * c.microBatchNum + c.microBatchNum := by
  have := hc.nLocalStages_pos
  rw [← Nat.succ_mul]
  congr 1
  omega

/-! ### The expanded order -/

theorem expandStep_replicate_none (n : ℕ) :
    (List.replicate n none).flatMap expandStep = List.replicate n Item.bubble := by
  induction n with
  | zero => rfl
  | succ n ih => simpa [List.replicate_succ, expandStep] using ih

section Columns

variable (c : ScheduleInterleaved1F1B)

/-- The items of a rank. -/
def items (i : ℕ) : List Item := expandOverlapSlots c.constructStageExecOrder i

/-- The items of a round of the warm-up. -/
def warmupItems (i k : ℕ) : List Item :=
  .plain (c.fwdStep i k) :: List.replicate (c.warmupPad i (c.warmupOps i) k) .bubble

/-- The items of a round of the cool-down. -/
def cooldownItems (i j : ℕ) : List Item :=
  .bubble :: .plain (c.bwdStep i j) :: List.replicate (c.cooldownPad i j) .bubble

/-- The items of the steady state. -/
def steadyItems (i : ℕ) : List Item := (c.steady i).flatMap expandStep

theorem items_eq (i : ℕ) : c.items i =
    List.replicate i .bubble ++ ((List.range (c.warmupOps i)).flatMap (c.warmupItems i) ++
      (List.replicate (c.stagger i - c.microBatchNum + (c.realStageNum - 1 - i)) .bubble ++
        (c.steadyItems i ++
          (List.range (c.warmupOps i)).flatMap fun j => c.cooldownItems i (c.steadyOps i + j)))) := by
  have hw : ∀ k, (c.warmupBlock i (c.warmupOps i) k).flatMap expandStep = c.warmupItems i k := by
    intro k
    simp [warmupBlock, warmupItems, expandStep, expandStep_replicate_none]
  have hc : ∀ j, (c.cooldownBlock i j).flatMap expandStep = c.cooldownItems i j := by
    intro j
    simp [cooldownBlock, cooldownItems, expandStep, expandStep_replicate_none]
  unfold items expandOverlapSlots
  rw [constructStageExecOrder_eq, List.replicate_add]
  simp only [List.flatMap_append, List.flatMap_assoc, hw, hc, expandStep_replicate_none,
    steadyItems, List.append_assoc]

variable {c} {i k j : ℕ}

/-- The start of the `k`-th warm-up round; the last value is the length of the warm-up. -/
def warmupStart (c : ScheduleInterleaved1F1B) (i k : ℕ) : ℕ :=
  if k < c.warmupOps i then c.slotOf k
  else c.warmupOps i + (c.nLocalStages - 1) * c.trailingBubble

theorem warmupOps_le (i : ℕ) :
    c.warmupOps i ≤ c.nLocalStages * c.microBatchNum := by
  unfold warmupOps
  rw [Nat.mul_comm c.nLocalStages]
  exact min_le_right _ _

theorem stagger_eq_zero (h : i < c.realStageNum) :
    c.stagger i = 0 ↔ i = c.realStageNum - 1 := by
  unfold stagger
  split_ifs <;> omega

theorem slotOf_zero : c.slotOf 0 = 0 := by simp [slotOf]

theorem fwdStep_microIndex (hc : c.Valid) (i k : ℕ) : (c.fwdStep i k).microIndex = c.microIndex k := by
  rw [fwdStep_eq hc.realStageNum_pos]

theorem bwdStep_microIndex (hc : c.Valid) (hj : j < c.nLocalStages * c.microBatchNum) :
    (c.bwdStep i j).microIndex = c.microIndex j := by
  rw [bwdStep_eq hc.realStageNum_pos i hj]

/-- The slots of the operations from the last chunk of the first round on. -/
theorem slotOf_lastChunk (hc : c.Valid) {r : ℕ} (hr : r < c.microBatchNum) :
    c.slotOf ((c.nLocalStages - 1) * c.microBatchNum + r) =
      (c.nLocalStages - 1) * c.microBatchNum + r + (c.nLocalStages - 1) * c.trailingBubble := by
  have hdiv : ((c.nLocalStages - 1) * c.microBatchNum + r) / c.microBatchNum =
      c.nLocalStages - 1 := by
    rw [Nat.mul_comm, Nat.mul_add_div hc.microBatchNum_pos, Nat.div_eq_of_lt hr, Nat.add_zero]
  rw [slotOf, hdiv, Nat.mul_comm c.trailingBubble]

theorem trailingBubble_long (h : c.realStageNum ≤ c.microBatchNum) : c.trailingBubble = 0 :=
  Nat.sub_eq_zero_of_le h

theorem warmupStart_succ (hc : c.Valid) (hi : i < c.realStageNum) (hk : k < c.warmupOps i) :
    c.warmupStart i (k + 1) = c.warmupStart i k + (c.warmupItems i k).length := by
  have hkt : k < c.nLocalStages * c.microBatchNum := hk.trans_le (warmupOps_le i)
  have hslot := slotOf_succ hc.realStageNum_pos hkt
  have hlen : (c.warmupItems i k).length = c.warmupPad i (c.warmupOps i) k + 1 := by
    simp [warmupItems]
  rw [hlen, warmupPad, fwdStep_microIndex hc]
  unfold warmupStart
  rw [if_pos hk]
  rcases Nat.lt_or_ge (k + 1) (c.warmupOps i) with hlt | hge
  · have hne : k ≠ c.warmupOps i - 1 ∨ i = c.realStageNum - 1 := by omega
    rw [if_pos hlt, hslot]
    simp only [hne, and_true]
    omega
  · rw [if_neg (by omega)]
    rcases Nat.lt_or_ge c.microBatchNum c.realStageNum with hshort | hlong
    · have hw := warmupOps_eq hc.realStageNum_pos hc.nLocalStages_pos i
      rw [roundSize_short hshort] at hw
      by_cases hlast : i = c.realStageNum - 1
      · -- the last rank: the warm-up ends with a full chunk and its bubbles
        have hstag := (stagger_eq_zero hi).2 hlast
        have hzero := slotOf_lastChunk hc hc.microBatchNum_pos
        have hk' : k + 1 = (c.nLocalStages - 1) * c.microBatchNum + 0 := by omega
        rw [hk', hzero] at hslot
        have hne : k ≠ c.warmupOps i - 1 ∨ i = c.realStageNum - 1 := Or.inr hlast
        simp only [hne, and_true]
        omega
      · -- any other rank: it ends inside the last chunk, or the bubbles are left out
        have hstag : 0 < c.stagger i := Nat.pos_of_ne_zero fun h =>
          hlast ((stagger_eq_zero hi).1 h)
        have hM := hc.microBatchNum_pos
        have hr : min (c.stagger i) c.microBatchNum - 1 < c.microBatchNum := by omega
        have hin := slotOf_lastChunk hc hr
        have hk' : (c.nLocalStages - 1) * c.microBatchNum +
            (min (c.stagger i) c.microBatchNum - 1) = k := by omega
        have hnot : ¬ (k ≠ c.warmupOps i - 1 ∨ i = c.realStageNum - 1) := by omega
        rw [hk'] at hin
        simp only [hnot, and_false, if_false]
        omega
    · have hb := trailingBubble_long hlong
      simp only [hb, ite_self, slotOf_long hlong]
      omega

theorem warmupStart_zero (hc : c.Valid) (i : ℕ) : c.warmupStart i 0 = 0 := by
  unfold warmupStart
  split_ifs with h
  · exact slotOf_zero
  · have hw := warmupOps_eq hc.realStageNum_pos hc.nLocalStages_pos i
    have hpos := roundSize_pos (ρ := 0) hc.realStageNum_pos hc.microBatchNum_pos
    have hzero : (c.nLocalStages - 1) * c.roundSize 0 = 0 := by omega
    rcases Nat.mul_eq_zero.1 hzero with h1 | h1
    · rw [h1, Nat.zero_mul]; omega
    · omega

theorem length_warmup (hc : c.Valid) (hi : i < c.realStageNum) :
    ((List.range (c.warmupOps i)).flatMap (c.warmupItems i)).length =
      c.warmupOps i + (c.nLocalStages - 1) * c.trailingBubble := by
  rw [length_flatMap_range (warmupStart_zero hc i) fun k hk => warmupStart_succ hc hi hk]
  exact if_neg (lt_irrefl _)

theorem item_warmup (hc : c.Valid) (hi : i < c.realStageNum) (hk : k < c.warmupOps i) :
    (c.items i)[i + c.slotOf k]? = some (.plain (c.fwdStep i k)) := by
  have hin := getElem?_flatMap_range (warmupStart_zero hc i)
    (fun k hk => warmupStart_succ hc hi hk) hk (show 0 < (c.warmupItems i k).length by
      simp [warmupItems])
  have hstart : c.warmupStart i k = c.slotOf k := if_pos hk
  rw [hstart, Nat.add_zero] at hin
  rw [items_eq]
  rw [getElem?_append_add _ List.length_replicate]
  exact getElem?_append_of_some (hin.trans (by simp [warmupItems]))

/-- Where the steady state starts. -/
theorem getElem?_items_steady (hc : c.Valid) (hi : i < c.realStageNum) (t : ℕ) :
    (c.items i)[c.realStageNum - 1 + c.warmupSlots i + t]? =
      (c.steadyItems i ++
        (List.range (c.warmupOps i)).flatMap fun j => c.cooldownItems i (c.steadyOps i + j))[t]? := by
  have hsplit : c.realStageNum - 1 + c.warmupSlots i + t =
      i + ((c.warmupOps i + (c.nLocalStages - 1) * c.trailingBubble) +
        (c.stagger i - c.microBatchNum + (c.realStageNum - 1 - i) + t)) := by
    rw [warmupSlots_eq hc.realStageNum_pos hc.nLocalStages_pos]
    omega
  rw [items_eq, hsplit, getElem?_append_add _ List.length_replicate,
    getElem?_append_add _ (length_warmup hc hi), getElem?_append_add _ List.length_replicate]

theorem shortMicro_iff : c.shortMicro = true ↔ c.microBatchNum < c.realStageNum := by
  simp [shortMicro]

/-- In a short batch the steady state is the last chunk without the stagger. -/
theorem steadyOps_short (hc : c.Valid) (hshort : c.microBatchNum < c.realStageNum) (i : ℕ) :
    c.steadyOps i = c.microBatchNum - c.stagger i := by
  have hw := warmupOps_eq hc.realStageNum_pos hc.nLocalStages_pos i
  have htotal := hc.lastChunk
  rw [roundSize_short hshort] at hw
  unfold steadyOps
  omega

/-- The bubbles after the steady state: only the last rank of a short batch has any. -/
def steadyTail (c : ScheduleInterleaved1F1B) (i : ℕ) : ℕ :=
  if c.shortMicro ∧ i = c.realStageNum - 1 then 2 * c.trailingBubble else 0

/-- The slots of the first operations, as many as the steady state has. -/
theorem slotOf_steadyOps (hc : c.Valid) (hi : i < c.realStageNum) :
    2 * c.slotOf (c.steadyOps i) = 2 * c.steadyOps i + c.steadyTail i := by
  unfold steadyTail
  rcases Nat.lt_or_ge c.microBatchNum c.realStageNum with hshort | hlong
  · have hM := hc.microBatchNum_pos
    have hn := steadyOps_short hc hshort i
    simp only [shortMicro_iff.2 hshort, true_and]
    split_ifs with hlast
    · have hstag := (stagger_eq_zero hi).2 hlast
      rw [hn, hstag, Nat.sub_zero, slotOf, Nat.div_self hM, Nat.mul_one, Nat.mul_add]
    · have hstag : 0 < c.stagger i := Nat.pos_of_ne_zero fun h =>
        hlast ((stagger_eq_zero hi).1 h)
      rw [slotOf, Nat.div_eq_of_lt (by omega), Nat.mul_zero, Nat.add_zero, Nat.add_zero]
  · have hs : ¬ (c.shortMicro = true ∧ i = c.realStageNum - 1) := fun h =>
      absurd (shortMicro_iff.1 h.1) (by omega)
    rw [if_neg hs, slotOf_long hlong]
    rfl

theorem steadyPad_eq (hc : c.Valid) (hi : i < c.realStageNum) (hj : j < c.steadyOps i) :
    c.steadyPad i j = if j = c.steadyOps i - 1 then c.steadyTail i else 0 := by
  have hjt : j < c.nLocalStages * c.microBatchNum := hj.trans_le (Nat.sub_le _ _)
  unfold steadyPad cooldownPad steadyTail
  rw [bwdStep_microIndex hc hjt]
  by_cases hlast : i = c.realStageNum - 1
  · rw [if_pos hlast]
    by_cases hs : c.shortMicro
    · have hshort := shortMicro_iff.1 hs
      have hn := steadyOps_short hc hshort i
      rw [(stagger_eq_zero hi).2 hlast, Nat.sub_zero] at hn
      rw [microIndex_short hc.realStageNum_pos hshort hjt, Nat.mod_eq_of_lt (by omega), hn]
      simp only [EndsChunk, hs, hlast, true_and, and_self, if_true]
    · simp [EndsChunk, hs]
  · simp [hlast]

/-! ### The steady state without pairs -/

/-- The items of a round of the steady state. -/
def steadyRoundItems (c : ScheduleInterleaved1F1B) (i j : ℕ) : List Item :=
  .plain (c.fwdStep i (c.warmupOps i + j)) :: .plain (c.bwdStep i j) ::
    List.replicate (c.steadyPad i j) .bubble

theorem steadyItems_plain (h : c.overlapBF = false) (i : ℕ) :
    c.steadyItems i = (List.range (c.steadyOps i)).flatMap (c.steadyRoundItems i) := by
  have hb : ∀ j, (c.steadyBlock i (c.warmupOps i) j).flatMap expandStep =
      c.steadyRoundItems i j := by
    intro j
    simp [steadyBlock, steadyRoundItems, expandStep, expandStep_replicate_none]
  simp [steadyItems, steady, h, List.flatMap_assoc, hb]

/-- The start of the `j`-th round; the last value is the length of the steady state. -/
def steadyStart (c : ScheduleInterleaved1F1B) (i j : ℕ) : ℕ :=
  if j < c.steadyOps i then 2 * j else 2 * c.slotOf (c.steadyOps i)

theorem steadyStart_zero (c : ScheduleInterleaved1F1B) (i : ℕ) : c.steadyStart i 0 = 0 := by
  unfold steadyStart
  split_ifs with h
  · rfl
  · rw [Nat.eq_zero_of_not_pos h, slotOf_zero]

theorem steadyStart_succ (hc : c.Valid) (hi : i < c.realStageNum) (hj : j < c.steadyOps i) :
    c.steadyStart i (j + 1) = c.steadyStart i j + (c.steadyRoundItems i j).length := by
  have hlen : (c.steadyRoundItems i j).length = c.steadyPad i j + 2 := by simp [steadyRoundItems]
  have htail := slotOf_steadyOps hc hi
  rw [hlen, steadyPad_eq hc hi hj]
  unfold steadyStart
  split_ifs <;> omega

theorem item_steady (hc : c.Valid) (hi : i < c.realStageNum) (h : c.overlapBF = false)
    (hj : j < c.steadyOps i) :
    (c.steadyItems i)[2 * j]? = some (.plain (c.fwdStep i (c.warmupOps i + j))) ∧
      (c.steadyItems i)[2 * j + 1]? = some (.plain (c.bwdStep i j)) := by
  have hlen : (c.steadyRoundItems i j).length = c.steadyPad i j + 2 := by simp [steadyRoundItems]
  have hstart : c.steadyStart i j = 2 * j := if_pos hj
  have hat := fun r => getElem?_flatMap_range (r := r) (c.steadyStart_zero i)
    (fun j hj => steadyStart_succ hc hi hj) hj
  rw [hstart, ← steadyItems_plain h] at hat
  exact ⟨(hat 0 (by omega)).trans (by simp [steadyRoundItems]),
    (hat 1 (by omega)).trans (by simp [steadyRoundItems])⟩

/-! ### The steady state with pairs -/

/-- The two slots of a pair. -/
def pairItems (c : ScheduleInterleaved1F1B) (i j : ℕ) : List Item :=
  expandStep (some (.overlap .overlapBF (c.bwdStep i j)
    (c.fwdStep i (c.warmupOps i + (j + 1)))))

theorem steadyItems_overlap (h : c.overlapBF = true) {m : ℕ} (hm : c.steadyOps i = m + 1) :
    c.steadyItems i = .plain (c.fwdStep i (c.warmupOps i)) ::
      ((List.range m).flatMap (c.pairItems i) ++
        .plain (c.bwdStep i m) :: List.replicate (c.steadyPad i m) .bubble) := by
  unfold steadyItems steady overlapBlocks
  rw [if_pos h, hm, pairIntoOverlapBF_range]
  simp [expandStep, expandStep_replicate_none, List.flatMap_map]
  rfl

theorem steadyItems_empty (h : c.overlapBF = true) (hn : c.steadyOps i = 0) :
    c.steadyItems i = [] := by
  unfold steadyItems steady overlapBlocks
  simp [h, hn, pairIntoOverlapBF]

theorem length_pairs (c : ScheduleInterleaved1F1B) (i m : ℕ) :
    ((List.range m).flatMap (c.pairItems i)).length = 2 * m :=
  length_flatMap_range (L := fun k => 2 * k) rfl fun k _ => by
    simp [pairItems, expandStep]; ring

theorem item_pair {m : ℕ} (i : ℕ) (hj : j < m) {r : ℕ} (hr : r < 2) :
    ((List.range m).flatMap (c.pairItems i))[2 * j + r]? = (c.pairItems i j)[r]? :=
  getElem?_flatMap_range (L := fun k => 2 * k) rfl
    (fun k _ => by simp [pairItems, expandStep]; ring) hj (by simpa [pairItems, expandStep] using hr)

/-- The items of the steady state: a forward at every even slot, a backward at every odd slot;
with pairs, the forwards but the first are second halves. -/
theorem item_overlap (h : c.overlapBF = true) (hj : j < c.steadyOps i) :
    (c.steadyItems i)[2 * j]? = some (if j = 0 then .plain (c.fwdStep i (c.warmupOps i)) else
        .phantom (.overlap .overlapBF (c.bwdStep i (j - 1)) (c.fwdStep i (c.warmupOps i + j)))
          (c.fwdStep i (c.warmupOps i + j)) false) ∧
      (c.steadyItems i)[2 * j + 1]? = some (if j + 1 = c.steadyOps i then .plain (c.bwdStep i j) else
        .phantom (.overlap .overlapBF (c.bwdStep i j) (c.fwdStep i (c.warmupOps i + (j + 1))))
          (c.bwdStep i j) true) := by
  obtain ⟨m, hm⟩ : ∃ m, c.steadyOps i = m + 1 := ⟨c.steadyOps i - 1, by omega⟩
  rw [steadyItems_overlap h hm, hm]
  constructor
  · cases j with
    | zero => rfl
    | succ j =>
      have hin := item_pair (c := c) i (show j < m by omega) (show 1 < 2 by omega)
      rw [if_neg (Nat.succ_ne_zero j), Nat.mul_add, Nat.mul_one, List.getElem?_cons_succ,
        Nat.add_sub_cancel]
      exact getElem?_append_of_some (hin.trans rfl)
  · rw [List.getElem?_cons_succ]
    split_ifs with hlast
    · obtain rfl : j = m := by omega
      rw [← Nat.add_zero (2 * j), getElem?_append_add _ (length_pairs c i j)]
      rfl
    · have hin := item_pair (c := c) i (show j < m by omega) (show 0 < 2 by omega)
      exact getElem?_append_of_some (hin.trans rfl)

theorem length_steadyItems (hc : c.Valid) (hi : i < c.realStageNum) :
    (c.steadyItems i).length = 2 * c.slotOf (c.steadyOps i) := by
  cases h : c.overlapBF with
  | false =>
    rw [steadyItems_plain h, length_flatMap_range (c.steadyStart_zero i)
      fun j hj => steadyStart_succ hc hi hj]
    exact if_neg (lt_irrefl _)
  | true =>
    cases hm : c.steadyOps i with
    | zero => rw [steadyItems_empty h hm, slotOf_zero]; rfl
    | succ m =>
      have hpad := steadyPad_eq hc hi (show m < c.steadyOps i by omega)
      have htail := slotOf_steadyOps hc hi
      rw [if_pos (by omega)] at hpad
      rw [steadyItems_overlap h hm, ← hm]
      simp only [List.length_cons, List.length_append, length_pairs, List.length_replicate]
      omega

/-! ### The cool-down -/

theorem item_cooldown (hc : c.Valid) (hi : i < c.realStageNum) (hlo : c.steadyOps i ≤ j)
    (hj : j < c.nLocalStages * c.microBatchNum) :
    (c.items i)[c.realStageNum - 1 + c.warmupSlots i + (2 * c.slotOf j + 1)]? =
      some (.plain (c.bwdStep i j)) := by
  have hw := c.warmupOps_le i
  have hn : c.steadyOps i + c.warmupOps i = c.nLocalStages * c.microBatchNum := by
    unfold steadyOps; omega
  -- the start of a round, counted from the end of the steady state
  have hmono : ∀ k ≤ c.warmupOps i,
      c.slotOf (c.steadyOps i) ≤ c.slotOf (c.steadyOps i + k) := fun k _ => by
    unfold slotOf
    have := Nat.mul_le_mul_left c.trailingBubble
      (Nat.div_le_div_right (c := c.microBatchNum) (Nat.le_add_right (c.steadyOps i) k))
    omega
  have hat := getElem?_flatMap_range (n := c.warmupOps i)
    (g := fun k => c.cooldownItems i (c.steadyOps i + k))
    (L := fun k => 2 * c.slotOf (c.steadyOps i + k) - 2 * c.slotOf (c.steadyOps i))
    (by simp) (fun k hk => by
      have hslot := slotOf_succ hc.realStageNum_pos
        (show c.steadyOps i + k < c.nLocalStages * c.microBatchNum by omega)
      have h1 := hmono k (by omega)
      have hlen : (c.cooldownItems i (c.steadyOps i + k)).length =
          c.cooldownPad i (c.steadyOps i + k) + 2 := by simp [cooldownItems]
      rw [hlen, cooldownPad, bwdStep_microIndex hc (by omega), ← Nat.add_assoc, hslot]
      split_ifs <;> omega)
    (show j - c.steadyOps i < c.warmupOps i by omega)
    (show 1 < (c.cooldownItems i (c.steadyOps i + (j - c.steadyOps i))).length by
      simp [cooldownItems])
  have h1 := hmono (j - c.steadyOps i) (by omega)
  have hj' : c.steadyOps i + (j - c.steadyOps i) = j := by omega
  simp only [hj'] at hat h1
  have hsplit : 2 * c.slotOf j + 1 = 2 * c.slotOf (c.steadyOps i) +
      (2 * c.slotOf j - 2 * c.slotOf (c.steadyOps i) + 1) := by omega
  rw [getElem?_items_steady hc hi, hsplit, getElem?_append_add _ (length_steadyItems hc hi), hat]
  rfl

/-! ### Columns in closed form -/

/-- The column of the `k`-th forward. -/
def fwdColumn (c : ScheduleInterleaved1F1B) (i k : ℕ) : ℕ :=
  if k < c.warmupOps i then i + c.slotOf k
  else c.realStageNum - 1 + c.warmupSlots i + 2 * (k - c.warmupOps i)

/-- The column of the `j`-th backward. -/
def bwdColumn (c : ScheduleInterleaved1F1B) (i j : ℕ) : ℕ :=
  c.realStageNum - 1 + c.warmupSlots i + (2 * c.slotOf j + 1)

/-- The column in which the `k`-th forward is appended: that of the backward it is paired with. -/
def emitColumn (c : ScheduleInterleaved1F1B) (i k : ℕ) : ℕ :=
  if c.overlapBF ∧ c.warmupOps i < k then c.fwdColumn i k - 1 else c.fwdColumn i k

theorem slotOf_of_lt_steadyOps (hc : c.Valid) (hj : j < c.steadyOps i) : c.slotOf j = j := by
  rcases Nat.lt_or_ge c.microBatchNum c.realStageNum with hshort | hlong
  · have := steadyOps_short hc hshort i
    rw [slotOf, Nat.div_eq_of_lt (by omega), Nat.mul_zero, Nat.add_zero]
  · exact slotOf_long hlong

theorem getElem?_items_of_steady (hc : c.Valid) (hi : i < c.realStageNum) {t : ℕ} {item : Item}
    (h : (c.steadyItems i)[t]? = some item) :
    (c.items i)[c.realStageNum - 1 + c.warmupSlots i + t]? = some item := by
  rw [getElem?_items_steady hc hi]
  exact getElem?_append_of_some h

/-- The item that carries the transfers of the `k`-th forward. -/
theorem subStep_fwdColumn (hc : c.Valid) (hi : i < c.realStageNum)
    (hk : k < c.nLocalStages * c.microBatchNum) :
    ∃ item, (c.items i)[c.fwdColumn i k]? = some item ∧ item.subStep = some (c.fwdStep i k) := by
  unfold fwdColumn
  split_ifs with hw
  · exact ⟨_, item_warmup hc hi hw, rfl⟩
  · have hj : k - c.warmupOps i < c.steadyOps i := by unfold steadyOps; omega
    have hk' : c.warmupOps i + (k - c.warmupOps i) = k := by omega
    cases h : c.overlapBF with
    | false =>
      have hin := (item_steady hc hi h hj).1
      rw [hk'] at hin
      exact ⟨_, getElem?_items_of_steady hc hi hin, rfl⟩
    | true =>
      have hin := (item_overlap h hj).1
      rw [hk'] at hin
      refine ⟨_, getElem?_items_of_steady hc hi hin, ?_⟩
      split_ifs with h0
      · rw [show k = c.warmupOps i by omega]; rfl
      · rfl

/-- The item that carries the transfers of the `j`-th backward. -/
theorem subStep_bwdColumn (hc : c.Valid) (hi : i < c.realStageNum)
    (hj : j < c.nLocalStages * c.microBatchNum) :
    ∃ item, (c.items i)[c.bwdColumn i j]? = some item ∧ item.subStep = some (c.bwdStep i j) ∧
      c.bwdStep i j ∈ Order.leaves item.emit := by
  unfold bwdColumn
  rcases Nat.lt_or_ge j (c.steadyOps i) with hlt | hge
  · rw [slotOf_of_lt_steadyOps hc hlt]
    cases h : c.overlapBF with
    | false =>
      exact ⟨_, getElem?_items_of_steady hc hi (item_steady hc hi h hlt).2, rfl, by
        simp [Item.emit, MetaStep.leaves]⟩
    | true =>
      refine ⟨_, getElem?_items_of_steady hc hi (item_overlap h hlt).2, ?_, ?_⟩
      · split_ifs <;> rfl
      · split_ifs <;> simp [Item.emit, MetaStep.leaves]
  · exact ⟨_, item_cooldown hc hi hge hj, rfl, by simp [Item.emit, MetaStep.leaves]⟩

/-- The item with which the `k`-th forward is appended. -/
theorem emit_emitColumn (hc : c.Valid) (hi : i < c.realStageNum)
    (hk : k < c.nLocalStages * c.microBatchNum) :
    ∃ item, (c.items i)[c.emitColumn i k]? = some item ∧
      c.fwdStep i k ∈ Order.leaves item.emit := by
  unfold emitColumn
  by_cases hpair : c.overlapBF ∧ c.warmupOps i < k
  · -- the second half of a pair: appended with the backward before it
    have hj : k - c.warmupOps i - 1 < c.steadyOps i := by unfold steadyOps; omega
    have hin := (item_overlap hpair.1 hj).2
    have hk' : c.warmupOps i + (k - c.warmupOps i - 1 + 1) = k := by omega
    have hne : k - c.warmupOps i - 1 + 1 ≠ c.steadyOps i := by unfold steadyOps; omega
    have hcol : c.fwdColumn i k - 1 = c.realStageNum - 1 + c.warmupSlots i +
        (2 * (k - c.warmupOps i - 1) + 1) := by
      unfold fwdColumn
      rw [if_neg (by omega)]
      omega
    rw [if_neg hne, hk'] at hin
    rw [if_pos hpair, hcol]
    exact ⟨_, getElem?_items_of_steady hc hi hin, by simp [Item.emit, MetaStep.leaves]⟩
  · rw [if_neg hpair]
    unfold fwdColumn
    split_ifs with hw
    · exact ⟨_, item_warmup hc hi hw, by simp [Item.emit, MetaStep.leaves]⟩
    · have hj : k - c.warmupOps i < c.steadyOps i := by unfold steadyOps; omega
      have hk' : c.warmupOps i + (k - c.warmupOps i) = k := by omega
      cases h : c.overlapBF with
      | false =>
        have hin := (item_steady hc hi h hj).1
        rw [hk'] at hin
        exact ⟨_, getElem?_items_of_steady hc hi hin, by simp [Item.emit, MetaStep.leaves]⟩
      | true =>
        have hkw : k = c.warmupOps i := by
          have : ¬ c.warmupOps i < k := fun hlt => hpair ⟨h, hlt⟩
          omega
        have hin := (item_overlap h hj).1
        rw [if_pos (by omega)] at hin
        exact ⟨_, getElem?_items_of_steady hc hi hin, by
          simp [Item.emit, MetaStep.leaves, hkw]⟩

end Columns

end HyperParallel.Pipeline.ScheduleInterleaved1F1B

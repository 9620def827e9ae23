import HyperParallel.Pipeline.AddSendRecv
import HyperParallel.Lib.Dict
import Mathlib.Algebra.Order.Ring.Nat
import Mathlib.Data.List.Range
import Mathlib.Data.List.Sort
import Mathlib.Tactic.Ring

/-!
# The stages of the ranks

`generate_stage_to_rank_mapping` and `generate_rank_to_stage_mapping` of
`pipeline_parallel/scheduler.py`, and how they compare to the `stage_to_rank` by which transfers are
inserted.  The first goes to and fro over the ranks as often as there are chunks
(`vMapping_eq`), the second once (`vMappingCorrect_iff`).
-/

namespace HyperParallel.Pipeline

/-! ### The mappings -/

/-- The rank of the stage behind one of rank `rankIndex`. -/
def nextRankIndex (realStageNum stageIndex : ℕ) (rankIndex : ℤ) : ℤ :=
  if (stageIndex + 1) % realStageNum = 0 then rankIndex
  else if stageIndex / realStageNum % 2 = 0 then rankIndex + 1
  else rankIndex - 1

/-- The loop of style `v`: the mapping so far and `rank_index`. -/
def vMapping (realStageNum stageNum : ℕ) : List (ℕ × ℤ) × ℤ :=
  (List.range stageNum).foldl (fun state stageIndex =>
    (Dict.set state.1 stageIndex state.2, nextRankIndex realStageNum stageIndex state.2)) ([], 0)

/-- `generate_stage_to_rank_mapping` -/
def generateStageToRankMapping (realStageNum stageNum : ℕ) (style : Style) :
    Except String (List (ℕ × ℤ)) :=
  match style with
  | .loop => .ok ((List.range stageNum).map fun stageIndex =>
      (stageIndex, ((stageIndex % realStageNum : ℕ) : ℤ)))
  | .v =>
    if stageNum % realStageNum ≠ 0 then
      .error (s!"stage_num {stageNum} must be evenly divisible by real_stage_num {realStageNum} " ++
        "for V schedules.")
    else .ok (vMapping realStageNum stageNum).1

/-- `generate_rank_to_stage_mapping` -/
def generateRankToStageMapping (realStageNum stageNum : ℕ) (style : Style) :
    Except String (List (ℤ × List ℕ)) := do
  let stageToRank ← generateStageToRankMapping realStageNum stageNum style
  let rankToStages := stageToRank.foldl (fun ranks entry =>
    Dict.set ranks entry.2 ((ranks.lookup entry.2).getD [] ++ [entry.1])) []
  return rankToStages.map fun entry => (entry.1, entry.2.insertionSort (· ≤ ·))

/-! ### To and fro -/

section VMapping

variable {realStageNum stageNum rank i k : ℕ}

/-- The rank of a stage when the stages go to and fro over the ranks. -/
def zigzag (realStageNum stageIndex : ℕ) : ℕ :=
  if stageIndex / realStageNum % 2 = 0 then stageIndex % realStageNum
  else realStageNum - 1 - stageIndex % realStageNum

theorem zigzag_lt (h : 0 < realStageNum) : zigzag realStageNum i < realStageNum := by
  have := Nat.mod_lt i h
  unfold zigzag
  split_ifs <;> omega

/-- The stage `i` of the chunk `k`. -/
theorem zigzag_chunk (hi : i < realStageNum) : zigzag realStageNum (realStageNum * k + i) =
    if k % 2 = 0 then i else realStageNum - 1 - i := by
  have hpos := Nat.zero_lt_of_lt hi
  rw [zigzag, Nat.mul_add_div hpos, Nat.div_eq_of_lt hi, Nat.mul_add_mod, Nat.mod_eq_of_lt hi,
    Nat.add_zero]

theorem nextRankIndex_zigzag (h : 0 < realStageNum) (i : ℕ) :
    nextRankIndex realStageNum i (zigzag realStageNum i) = zigzag realStageNum (i + 1) := by
  obtain ⟨k, r, hr, rfl⟩ : ∃ k r, r < realStageNum ∧ i = realStageNum * k + r :=
    ⟨i / realStageNum, i % realStageNum, Nat.mod_lt i h, (Nat.div_add_mod i realStageNum).symm⟩
  have hdiv : (realStageNum * k + r) / realStageNum = k := by
    rw [Nat.mul_add_div h, Nat.div_eq_of_lt hr, Nat.add_zero]
  rw [nextRankIndex, zigzag_chunk hr, hdiv, Nat.add_assoc, Nat.mul_add_mod]
  by_cases hlast : r + 1 = realStageNum
  · -- the last stage of a chunk: the next chunk goes on with the same rank
    have hnext : realStageNum * k + (r + 1) = realStageNum * (k + 1) + 0 := by
      rw [hlast, Nat.mul_succ, Nat.add_zero]
    rw [hnext, zigzag_chunk h, hlast, Nat.mod_self, if_pos rfl]
    split_ifs <;> omega
  · have hlt : r + 1 < realStageNum := by omega
    rw [zigzag_chunk hlt, Nat.mod_eq_of_lt hlt, if_neg (Nat.succ_ne_zero r)]
    split_ifs <;> omega

theorem set_of_notMem {κ β : Type} [DecidableEq κ] {d : List (κ × β)} {key : κ} {value : β}
    (h : key ∉ d.map Prod.fst) : Dict.set d key value = d ++ [(key, value)] := by
  induction d with
  | nil => rfl
  | cons entry d ih =>
    rw [List.map_cons, List.mem_cons, not_or] at h
    rw [Dict.set, if_neg (Ne.symm h.1), ih h.2]
    rfl

/-- The loop maps every stage to its place to and fro. -/
theorem vMapping_eq (h : 0 < realStageNum) (n : ℕ) : vMapping realStageNum n =
    ((List.range n).map fun i => (i, (zigzag realStageNum i : ℤ)), (zigzag realStageNum n : ℤ)) := by
  induction n with
  | zero => simp [vMapping, zigzag]
  | succ n ih =>
    have hnew : n ∉ ((List.range n).map fun i => (i, (zigzag realStageNum i : ℤ))).map
        Prod.fst := by
      simp
    rw [vMapping, List.range_succ, List.foldl_append, ← vMapping, ih, List.foldl_cons,
      List.foldl_nil, set_of_notMem hnew, nextRankIndex_zigzag h, List.map_append]
    rfl

/-- Stages one after the other are on the same rank or on neighbours. -/
theorem zigzag_adjacent (h : 0 < realStageNum) (i : ℕ) :
    ((zigzag realStageNum (i + 1) : ℤ) - zigzag realStageNum i).natAbs ≤ 1 := by
  rw [← nextRankIndex_zigzag h, nextRankIndex]
  split_ifs <;> omega

/-- Every rank has one stage of every chunk. -/
theorem countP_zigzag (hrank : rank < realStageNum) (k : ℕ) :
    ((List.range (realStageNum * k)).countP fun i => zigzag realStageNum i = rank) = k := by
  induction k with
  | zero => rfl
  | succ k ih =>
    have hchunk : ((List.range realStageNum).countP fun i =>
        zigzag realStageNum (realStageNum * k + i) = rank) = 1 := by
      have hplace : ∀ i ∈ List.range realStageNum,
          decide (zigzag realStageNum (realStageNum * k + i) = rank) = true ↔
            (i == if k % 2 = 0 then rank else realStageNum - 1 - rank) = true := by
        intro i hi
        rw [List.mem_range] at hi
        rw [zigzag_chunk hi, decide_eq_true_eq, beq_iff_eq]
        split_ifs <;> omega
      rw [List.countP_congr hplace]
      refine List.count_eq_one_of_mem List.nodup_range (List.mem_range.2 ?_)
      split_ifs <;> omega
    rw [Nat.mul_succ, List.range_add, List.countP_append, ih, List.countP_map]
    exact congrArg (k + ·) hchunk

/-! ### The stages of a rank -/

theorem lookup_rankToStages (entries : List (ℕ × ℤ)) (ranks : List (ℤ × List ℕ)) (r : ℤ) :
    ((entries.foldl (fun ranks entry =>
      Dict.set ranks entry.2 ((ranks.lookup entry.2).getD [] ++ [entry.1])) ranks).lookup r).getD [] =
      (ranks.lookup r).getD [] ++ (entries.filter fun entry => entry.2 = r).map Prod.fst := by
  induction entries generalizing ranks with
  | nil => simp
  | cons entry entries ih =>
    rw [List.foldl_cons, ih, Dict.lookup_set, List.filter_cons]
    by_cases h : r = entry.2
    · subst h
      simp
    · have hne : ¬ entry.2 = r := fun heq => h heq.symm
      simp [h, hne]

/-! ### Both mappings -/

/-- What style `v` is meant to give: the map agrees with that of the transfers, stays on the ranks,
goes on to neighbours, and gives every rank a stage of every chunk. -/
structure VMappingCorrect (realStageNum stageNum : ℕ) (mapping : List (ℕ × ℤ))
    (rankToStages : List (ℤ × List ℕ)) : Prop where
  agrees : ∀ i < stageNum, mapping.lookup i = some (stageToRank .v stageNum realStageNum i : ℤ)
  inRange : ∀ i < stageNum, ∃ r, mapping.lookup i = some r ∧ 0 ≤ r ∧ r < realStageNum
  adjacent : ∀ i, i + 1 < stageNum → ∃ r r', mapping.lookup i = some r ∧
    mapping.lookup (i + 1) = some r' ∧ (r' - r).natAbs ≤ 1
  balanced : ∀ r < realStageNum,
    ((rankToStages.lookup (r : ℤ)).getD []).length = stageNum / realStageNum

theorem lookup_vMapping (h : 0 < realStageNum) (hi : i < stageNum) :
    (vMapping realStageNum stageNum).1.lookup i = some (zigzag realStageNum i : ℤ) := by
  rw [vMapping_eq h]
  refine (Dict.lookup_eq_some_iff ?_).2 (List.mem_map.2 ⟨i, List.mem_range.2 hi, rfl⟩)
  rw [List.map_map]
  exact (List.map_id' _).symm ▸ List.nodup_range

/-- With two chunks or fewer there is only one way back. -/
theorem stageToRank_eq_zigzag (h : 0 < realStageNum) (hle : stageNum ≤ 2 * realStageNum)
    (hdvd : realStageNum ∣ stageNum) (hi : i < stageNum) :
    stageToRank .v stageNum realStageNum i = zigzag realStageNum i := by
  obtain ⟨k, rfl⟩ := hdvd
  unfold stageToRank
  simp only
  split_ifs with hfirst
  · have hchunk := zigzag_chunk (k := 0) hfirst
    rw [Nat.mul_zero, Nat.zero_add] at hchunk
    rw [hchunk]
    rfl
  · obtain rfl : k = 2 := by
      have hk : k ≤ 2 := Nat.le_of_mul_le_mul_left (by omega) h
      match k, hk with
      | 0, _ => simp at hi
      | 1, _ => omega
      | 2, _ => rfl
    obtain ⟨j, rfl⟩ : ∃ j, i = realStageNum * 1 + j := ⟨i - realStageNum, by omega⟩
    rw [zigzag_chunk (by omega), if_neg (by decide)]
    omega

/-- The mappings of style `v` are as meant exactly when no rank has more than two stages. -/
theorem vMappingCorrect_iff (h : 0 < realStageNum) (hdvd : realStageNum ∣ stageNum) :
    (∃ mapping rankToStages, generateStageToRankMapping realStageNum stageNum .v = .ok mapping ∧
      generateRankToStageMapping realStageNum stageNum .v = .ok rankToStages ∧
      VMappingCorrect realStageNum stageNum mapping rankToStages) ↔
      stageNum ≤ 2 * realStageNum := by
  have hmapping : generateStageToRankMapping realStageNum stageNum .v =
      .ok (vMapping realStageNum stageNum).1 := by
    rw [generateStageToRankMapping, if_neg (not_not.2 (Nat.mod_eq_zero_of_dvd hdvd))]
  constructor
  · rintro ⟨mapping, rankToStages, hok, -, hcorrect⟩
    obtain rfl := Except.ok.inj (hmapping.symm.trans hok)
    by_contra hmany
    -- the first stage of the second chunk
    have hlt : realStageNum < stageNum := by omega
    have hagrees := hcorrect.agrees realStageNum hlt
    have hrange := zigzag_lt (i := realStageNum) h
    rw [lookup_vMapping h hlt, Option.some.injEq, stageToRank, if_neg (lt_irrefl _)] at hagrees
    omega
  · intro hle
    refine ⟨_, _, hmapping, by rw [generateRankToStageMapping, hmapping]; rfl, ?_, ?_, ?_, ?_⟩
    · intro i hi
      rw [lookup_vMapping h hi, stageToRank_eq_zigzag h hle hdvd hi]
    · intro i hi
      exact ⟨_, lookup_vMapping h hi, Int.natCast_nonneg _, Int.ofNat_lt.2 (zigzag_lt h)⟩
    · intro i hi
      exact ⟨_, _, lookup_vMapping h (Nat.lt_of_succ_lt hi), lookup_vMapping h hi,
        zigzag_adjacent h i⟩
    · intro r hr
      obtain ⟨k, rfl⟩ := hdvd
      rw [Dict.lookup_map fun (_ : ℤ) (stages : List ℕ) => stages.insertionSort (· ≤ ·)]
      have hstages := lookup_rankToStages (vMapping realStageNum (realStageNum * k)).1 [] r
      have hsort : ∀ stages : Option (List ℕ),
          ((stages.map (List.insertionSort (· ≤ ·))).getD []).length = (stages.getD []).length := by
        intro stages
        cases stages with
        | none => rfl
        | some stages => exact List.length_insertionSort _ _
      rw [hsort, hstages, vMapping_eq h, List.lookup_nil, Option.getD_none, List.nil_append,
        List.length_map, ← List.countP_eq_length_filter, List.countP_map, Nat.mul_div_cancel_left k h]
      refine Eq.trans (List.countP_congr fun i _ => ?_) (countP_zigzag hr k)
      simp

/-- Six stages on two ranks: the transfers of stage 2 look for rank 3. -/
theorem not_vMappingCorrect_six : ¬ ∃ mapping rankToStages,
    generateStageToRankMapping 2 6 .v = .ok mapping ∧
      generateRankToStageMapping 2 6 .v = .ok rankToStages ∧
      VMappingCorrect 2 6 mapping rankToStages := by
  rintro ⟨mapping, rankToStages, hmapping, -, hcorrect⟩
  have hloop : generateStageToRankMapping 2 6 .v =
      .ok [(0, 0), (1, 1), (2, 1), (3, 0), (4, 0), (5, 1)] := by decide
  obtain rfl := Except.ok.inj (hloop.symm.trans hmapping)
  exact absurd (hcorrect.agrees 2 (by decide)) (by decide)

theorem vMappingCorrect_iff_four : (∃ mapping rankToStages,
    generateStageToRankMapping 2 4 .v = .ok mapping ∧
      generateRankToStageMapping 2 4 .v = .ok rankToStages ∧
      VMappingCorrect 2 4 mapping rankToStages) ↔ 4 ≤ 2 * 2 :=
  vMappingCorrect_iff (by decide) (by decide)

end VMapping

end HyperParallel.Pipeline

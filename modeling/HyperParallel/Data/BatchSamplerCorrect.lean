import HyperParallel.Data.BatchSampler
import HyperParallel.Lib.ExceptList
import Mathlib.Data.List.GetD
import Mathlib.Data.List.Nodup
import Mathlib.Data.List.Perm.Basic
import Mathlib.Order.Interval.Set.Defs
import Mathlib.Data.Set.Function
import Mathlib.Algebra.Order.Ring.Nat

/-!
# An epoch in several sessions

Each session yields a stretch of one order of the samples (`perm_of_session`).  The sequential
order does not depend on the world size; the shuffled order does, through the length of the
region that is shuffled.  So an epoch in several sessions visits what an uninterrupted one visits
when every session that yields something shuffles a region of the last session's length
(`epochRun_perm`).
-/

namespace HyperParallel.Data

open DatasetBatchSampler ExceptList

/-! ### Slices -/

section Slices

variable {step n : ℕ} {l l' : List ℕ}

@[simp] theorem strided_nil (r : ℕ) : strided step r [] = [] := by
  cases r <;> rfl

theorem strided_append_of_le {r : ℕ} (h : l.length ≤ r) :
    strided step r (l ++ l') = strided step (r - l.length) l' := by
  induction l generalizing r with
  | nil => rfl
  | cons a l ih =>
    cases r with
    | zero => simp at h
    | succ r =>
      rw [List.cons_append, strided, ih (by simpa using h), List.length_cons, Nat.add_sub_add_right]

/-- One round of `step` elements gives one element to each slice. -/
theorem strided_round {r : ℕ} (hl : l.length = step) (hr : r < step) :
    strided step r (l ++ l') = l[r]?.toList ++ strided step r l' := by
  have hrl : r < l.length := hl ▸ hr
  have hsplit : l = l.take r ++ l[r] :: l.drop (r + 1) := by
    rw [List.getElem_cons_drop, List.take_append_drop]
  have htake : (l.take r).length = r := by simp [hrl.le]
  have hdrop : (l.drop (r + 1)).length = step - 1 - r := by
    rw [List.length_drop, hl]
    omega
  rw [List.getElem?_eq_getElem hrl]
  conv_lhs => rw [hsplit]
  rw [List.append_assoc, strided_append_of_le htake.le, htake, Nat.sub_self, List.cons_append,
    strided, strided_append_of_le (by omega), hdrop]
  simp only [Option.toList_some, List.singleton_append]
  congr 2
  omega

theorem flatMap_getElem?_toList : ((List.range l.length).flatMap fun r => l[r]?.toList) = l := by
  have h : ∀ r ∈ List.range l.length, l[r]?.toList = [l.getD r 0] := by
    intro r hr
    have hlt := List.mem_range.1 hr
    rw [List.getElem?_eq_getElem hlt, List.getD_eq_getElem _ _ hlt]
    rfl
  rw [List.flatMap_congr h, ← List.map_eq_flatMap]
  refine List.ext_getElem (by simp) fun i h1 h2 => ?_
  simp [List.getElem?_eq_getElem h2]

/-- Whole rounds: the slices have one element a round, and share out the list. -/
theorem strided_rounds (hl : l.length = n * step) :
    (∀ r < step, ∀ l', strided step r (l ++ l') = strided step r l ++ strided step r l' ∧
      (strided step r l).length = n) ∧
    ((List.range step).flatMap fun r => strided step r l).Perm l := by
  induction n generalizing l with
  | zero =>
    obtain rfl : l = [] := List.length_eq_zero_iff.1 (by simpa using hl)
    simp
  | succ n ih =>
    have hlen : (l.take step).length = step := by
      rw [List.length_take, hl, Nat.succ_mul]
      omega
    have hrest : (l.drop step).length = n * step := by
      rw [List.length_drop, hl, Nat.succ_mul]
      omega
    obtain ⟨happend, hperm⟩ := ih hrest
    have hround : ∀ r < step, strided step r l =
        (l.take step)[r]?.toList ++ strided step r (l.drop step) := by
      intro r hr
      conv_lhs => rw [← List.take_append_drop step l]
      exact strided_round hlen hr
    constructor
    · intro r hr l'
      have hone : ((l.take step)[r]?.toList).length = 1 := by
        rw [List.getElem?_eq_getElem (by omega)]
        rfl
      constructor
      · rw [hround r hr]
        conv_lhs => rw [← List.take_append_drop step l]
        rw [List.append_assoc, strided_round hlen hr, (happend r hr l').1, List.append_assoc]
      · rw [hround r hr, List.length_append, hone, (happend r hr []).2, Nat.add_comm]
    · rw [List.flatMap_congr fun r hr => hround r (List.mem_range.1 hr)]
      refine (List.flatMap_append_perm _ _ _).symm.trans ?_
      conv_rhs => rw [← List.take_append_drop step l]
      refine List.Perm.append (List.Perm.of_eq ?_) hperm
      have hone := flatMap_getElem?_toList (l := l.take step)
      rwa [hlen] at hone

/-- Consecutive ranges. -/
theorem flatMap_range'_sub {f : ℕ → ℕ} (hf : Monotone f) (n : ℕ) :
    ((List.range n).flatMap fun r => List.range' (f r) (f (r + 1) - f r)) =
      List.range' (f 0) (f n - f 0) := by
  induction n with
  | zero => simp
  | succ n ih =>
    have h0 := hf (Nat.zero_le n)
    have h1 := hf (Nat.le_add_right n 1)
    rw [List.range_succ, List.flatMap_append, ih, List.flatMap_singleton,
      show f (n + 1) - f 0 = (f n - f 0) + (f (n + 1) - f n) by omega, ← List.range'_append_1]
    congr 2
    omega

end Slices

/-! ### The rounds of one sampler -/

section Rounds

variable {s : DatasetBatchSampler} {c stop n : ℕ} {l l' : List ℕ}

@[simp] theorem yielded_nil : yielded [] = [] := rfl

@[simp] theorem yielded_cons (x : Option (List ℕ)) (k : ℕ) (rounds : List Round) :
    yielded ((x, k) :: rounds) = x.getD [] ++ yielded rounds := rfl

theorem roundsUntil_cons_of_le {x : Option (List ℕ)} {k : ℕ} {rounds : List Round}
    (h : k ≤ stop) : roundsUntil stop ((x, k) :: rounds) = (x, k) :: roundsUntil stop rounds := by
  simp [roundsUntil, h]

theorem roundsUntil_cons_of_lt {x : Option (List ℕ)} {k : ℕ} {rounds : List Round}
    (h : stop < k) : roundsUntil stop ((x, k) :: rounds) = [] := by
  simp [roundsUntil, h]

/-- A full batch of the cyclic sampler. -/
theorem cyclicRounds_batch {localBatch : List ℕ} (hne : l ≠ [])
    (hlen : localBatch.length + l.length = s.microBatchSize) :
    s.cyclicRounds c localBatch (l ++ l') =
      (some (localBatch ++ l), c + s.globalMicroBatchSize s.dpWorldSize) ::
        s.cyclicRounds (c + s.globalMicroBatchSize s.dpWorldSize) [] l' := by
  induction l generalizing localBatch with
  | nil => exact absurd rfl hne
  | cons a l ih =>
    rw [List.cons_append, cyclicRounds]
    cases l with
    | nil =>
      have hfull : (localBatch ++ [a]).length = s.microBatchSize := by simpa using hlen
      rw [if_pos hfull]
      rfl
    | cons b l =>
      have hpart : ¬ (localBatch ++ [a]).length = s.microBatchSize := by
        simp only [List.length_append, List.length_cons, List.length_nil] at hlen ⊢
        omega
      rw [if_neg hpart, ih (by simp) (by simp at hlen ⊢; omega), List.append_assoc]
      rfl

end Rounds

/-- The sampler of a rank. -/
def samplerOf (o : SamplerOptions) (dpWorldSize consumed epoch dpRank : ℕ) : DatasetBatchSampler :=
  { o with dpRank, dpWorldSize, consumedSamples := consumed, epoch }

section Ranks

variable {o : SamplerOptions} {W c c' epoch stop n : ℕ} {l : List ℕ}

/-- What all ranks yield up to `stop` from the shuffled indices that are left. -/
theorem perm_cyclicRounds (hmicro : 0 < o.microBatchSize) (hworld : 0 < W)
    (hl : l.length = n * o.globalMicroBatchSize W) :
    ((List.range W).flatMap fun r => yielded (roundsUntil stop
      ((samplerOf o W c epoch r).cyclicRounds c' [] (strided W r l)))).Perm
      (l.take ((stop - c') / o.globalMicroBatchSize W * o.globalMicroBatchSize W)) := by
  have hgmb : 0 < o.globalMicroBatchSize W := Nat.mul_pos hmicro hworld
  induction n generalizing l c' with
  | zero =>
    obtain rfl : l = [] := List.length_eq_zero_iff.1 (by simpa using hl)
    simp [cyclicRounds, roundsUntil]
  | succ n ih =>
    rw [Nat.succ_mul] at hl
    have hround : (l.take (o.globalMicroBatchSize W)).length = o.microBatchSize * W := by
      rw [List.length_take, hl]
      exact Nat.min_eq_left (Nat.le_add_left _ _)
    have hrest : (l.drop (o.globalMicroBatchSize W)).length = n * o.globalMicroBatchSize W := by
      rw [List.length_drop, hl]
      omega
    obtain ⟨hslice, hperm⟩ := strided_rounds hround
    -- the first round of every rank
    have hrounds : ∀ r ∈ List.range W,
        (samplerOf o W c epoch r).cyclicRounds c' [] (strided W r l) =
        (some (strided W r (l.take (o.globalMicroBatchSize W))), c' + o.globalMicroBatchSize W) ::
          (samplerOf o W c epoch r).cyclicRounds (c' + o.globalMicroBatchSize W) []
            (strided W r (l.drop (o.globalMicroBatchSize W))) := by
      intro r hr
      obtain ⟨happend, hlen⟩ := hslice r (List.mem_range.1 hr)
        (l.drop (o.globalMicroBatchSize W))
      rw [List.take_append_drop] at happend
      rw [happend]
      refine cyclicRounds_batch (fun h => ?_) ((Nat.zero_add _).trans hlen)
      rw [h] at hlen
      exact absurd hlen.symm (by simpa using hmicro.ne')
    by_cases hstop : c' + o.globalMicroBatchSize W ≤ stop
    · have htake : (stop - c') / o.globalMicroBatchSize W * o.globalMicroBatchSize W =
          o.globalMicroBatchSize W + (stop - (c' + o.globalMicroBatchSize W)) /
            o.globalMicroBatchSize W * o.globalMicroBatchSize W := by
        rw [show stop - c' = stop - (c' + o.globalMicroBatchSize W) + o.globalMicroBatchSize W by
          omega, Nat.add_div_right _ hgmb, Nat.succ_mul, Nat.add_comm]
      rw [List.flatMap_congr fun r hr => by
        rw [hrounds r hr, roundsUntil_cons_of_le hstop, yielded_cons, Option.getD_some], htake,
        List.take_add]
      exact (List.flatMap_append_perm _ _ _).symm.trans (hperm.append (ih hrest))
    · have htake : (stop - c') / o.globalMicroBatchSize W = 0 :=
        Nat.div_eq_of_lt (by omega)
      rw [List.flatMap_congr fun r hr => by
        rw [hrounds r hr, roundsUntil_cons_of_lt (by omega), yielded_nil], htake]
      simp

/-- A block of the sequential sampler: the batch of a rank is its part of the block. -/
theorem singleRounds_block (W c epoch fuel r : ℕ) (hlt : c' < o.totalSamples)
    (hbreak : ¬ (o.dropLast = true ∧
      min (c' + o.globalMicroBatchSize W) o.totalSamples - c' < o.globalMicroBatchSize W)) :
    ∃ batch : Option (List ℕ), (samplerOf o W c epoch r).singleRounds (fuel + 1) c' =
      (batch, min (c' + o.globalMicroBatchSize W) o.totalSamples) ::
        (samplerOf o W c epoch r).singleRounds fuel
          (min (c' + o.globalMicroBatchSize W) o.totalSamples) ∧
      batch.getD [] = (List.range'
        (min (c' + r * o.microBatchSize) (min (c' + o.globalMicroBatchSize W) o.totalSamples))
        (min (c' + (r + 1) * o.microBatchSize)
            (min (c' + o.globalMicroBatchSize W) o.totalSamples) -
          min (c' + r * o.microBatchSize)
            (min (c' + o.globalMicroBatchSize W) o.totalSamples))).map o.resolveIndex := by
  rw [singleRounds]
  simp only [samplerOf, hlt, hbreak, if_true, if_false, Nat.succ_mul]
  by_cases hafter : min (c' + o.globalMicroBatchSize W) o.totalSamples ≤
      c' + r * o.microBatchSize
  · refine ⟨none, if_pos hafter, ?_⟩
    have hnext := hafter.trans (Nat.add_le_add_left (Nat.le_add_right _ o.microBatchSize) c')
    rw [Nat.min_eq_right hafter, Nat.min_eq_right hnext, Nat.sub_self]
    rfl
  · refine ⟨_, if_neg hafter, ?_⟩
    rw [Option.getD_some, Nat.min_eq_left (Nat.le_of_not_le hafter), Nat.add_assoc]

/-- What all ranks yield up to `stop` in sequential order. -/
theorem perm_singleRounds (hmicro : 0 < o.microBatchSize) (hworld : 0 < W) {fuel : ℕ}
    (hfuel : o.totalSamples ≤ c' + fuel)
    (hc : o.globalMicroBatchSize W ∣ c' ∨ c' = o.totalSamples) (hle : c' ≤ o.totalSamples)
    (hstop : o.globalMicroBatchSize W ∣ stop ∨ stop = o.totalSamples)
    (hcs : c' ≤ stop) (hstople : stop ≤ o.totalSamples) :
    ((List.range W).flatMap fun r => yielded (roundsUntil stop
      ((samplerOf o W c epoch r).singleRounds fuel c'))).Perm
      ((List.range' c' (min stop (if o.dropLast then o.activeSamples W else o.totalSamples) -
        c')).map o.resolveIndex) := by
  have hgmb : 0 < o.globalMicroBatchSize W := Nat.mul_pos hmicro hworld
  have hactive : o.activeSamples W ≤ o.totalSamples := Nat.sub_le _ _
  have hdvd : o.globalMicroBatchSize W ∣ o.activeSamples W := Nat.dvd_sub_mod _
  have hlast : o.totalSamples < o.activeSamples W + o.globalMicroBatchSize W := by
    have := Nat.mod_lt o.totalSamples hgmb
    have := Nat.mod_le o.totalSamples (o.globalMicroBatchSize W)
    unfold SamplerOptions.activeSamples
    omega
  -- a multiple of the block size inside the samples is inside the complete blocks
  have hmul : ∀ k, o.globalMicroBatchSize W ∣ k → k ≤ o.totalSamples → k ≤ o.activeSamples W := by
    intro k hk hkle
    by_contra hlt
    have := Nat.le_of_dvd (by omega) (Nat.dvd_sub hk hdvd)
    omega
  induction fuel generalizing c' with
  | zero =>
    obtain rfl : c' = o.totalSamples := by omega
    have : min stop (if o.dropLast then o.activeSamples W else o.totalSamples) -
        o.totalSamples = 0 := by omega
    simp [singleRounds, roundsUntil, this]
  | succ fuel ih =>
    by_cases hlt : c' < o.totalSamples
    · have hcd : o.globalMicroBatchSize W ∣ c' := hc.resolve_right (by omega)
      by_cases hbreak : o.dropLast = true ∧
          min (c' + o.globalMicroBatchSize W) o.totalSamples - c' < o.globalMicroBatchSize W
      · -- the incomplete last block
        have hend : min stop (o.activeSamples W) - c' = 0 := by
          have h1 := hmul c' hcd hle
          have h2 : o.activeSamples W ≤ c' := by
            by_contra h
            have := Nat.le_of_dvd (by omega) (Nat.dvd_sub hdvd hcd)
            omega
          omega
        rw [if_pos hbreak.1, hend, List.flatMap_congr (g := fun _ => []) fun r hr => ?_]
        · simp
        · rw [singleRounds]
          simp only [samplerOf, hlt, hbreak, if_true, and_self]
          by_cases hs : o.totalSamples ≤ stop
          · rw [roundsUntil_cons_of_le hs]
            rfl
          · rw [roundsUntil_cons_of_lt (by omega)]
            rfl
      · -- a block, shared out among the ranks
        have hblock := fun r => singleRounds_block W c epoch fuel r hlt hbreak
        choose batch hround hbatch using hblock
        generalize hB : min (c' + o.globalMicroBatchSize W) o.totalSamples = B at *
        have hcB : c' < B := by omega
        by_cases hs : c' = stop
        · rw [List.flatMap_congr fun r hr => by
            rw [hround r, roundsUntil_cons_of_lt (by omega), yielded_nil]]
          simp [hs]
        · have hBstop : B ≤ stop := by
            rcases hstop with hstop | rfl
            · have := Nat.le_of_dvd (by omega) (Nat.dvd_sub hstop hcd)
              omega
            · omega
          have hBend : B ≤ if o.dropLast then o.activeSamples W else o.totalSamples := by
            split_ifs with hdrop
            · have hfull : B = c' + o.globalMicroBatchSize W := by
                by_contra h
                exact hbreak ⟨hdrop, by omega⟩
              exact hmul B (hfull ▸ Nat.dvd_add hcd dvd_rfl) (by omega)
            · omega
          have hBdvd : o.globalMicroBatchSize W ∣ B ∨ B = o.totalSamples := by
            rcases Nat.le_total (c' + o.globalMicroBatchSize W) o.totalSamples with h | h
            · exact Or.inl ((by omega : B = c' + o.globalMicroBatchSize W) ▸
                Nat.dvd_add hcd dvd_rfl)
            · exact Or.inr (by omega)
          rw [List.flatMap_congr fun r hr => by
            rw [hround r, roundsUntil_cons_of_le hBstop, yielded_cons, hbatch r]]
          have hmono : Monotone fun r => min (c' + r * o.microBatchSize) B := fun i j hij =>
            min_le_min_right _ (Nat.add_le_add_left (Nat.mul_le_mul_right _ hij) _)
          have hpart := flatMap_range'_sub hmono W
          rw [show W * o.microBatchSize = o.globalMicroBatchSize W from Nat.mul_comm _ _,
            show min (c' + 0 * o.microBatchSize) B = c' by omega,
            show min (c' + o.globalMicroBatchSize W) B = B by omega] at hpart
          refine (List.flatMap_append_perm _ _ _).symm.trans ?_
          rw [← List.map_flatMap, hpart]
          refine ((List.Perm.refl _).append (ih (by omega) hBdvd (by omega) hBstop)).trans
            (List.Perm.of_eq ?_)
          · rw [← List.map_append, show min stop (if o.dropLast then o.activeSamples W
              else o.totalSamples) - c' = (B - c') + (min stop (if o.dropLast then o.activeSamples W
              else o.totalSamples) - B) by omega, ← List.range'_append_1]
            congr 3
            omega
    · -- all samples are consumed
      have hend : min stop (if o.dropLast then o.activeSamples W else o.totalSamples) - c' = 0 := by
        omega
      rw [hend, List.flatMap_congr (g := fun _ => []) fun r hr => ?_]
      · simp
      · rw [singleRounds, if_neg (by simpa [samplerOf] using hlt)]
        rfl

end Ranks

/-! ### Sessions -/

/-- The samplers of a world size are built and load the state. -/
structure Accepted (o : SamplerOptions) (W : ℕ) (state : SamplerState) : Prop where
  noMapping : ¬ (o.samplerType ≠ .single ∧ o.indexMapping.isSome)
  totalSamples : o.totalSamples ≠ 0
  microBatchSize : o.microBatchSize ≠ 0
  dpWorldSize : W ≠ 0
  globalBatchSize : o.globalBatchSize ≠ 0
  divisible : o.globalBatchSize % o.globalMicroBatchSize W = 0
  dropLast : ¬ (o.samplerType ≠ .single ∧ !o.dropLast)
  sharding : ¬ (o.samplerType.dataSharding ∧ state.dpWorldSize ≠ W)
  consumed : ¬ o.totalSamples < state.consumedSamples
  unchanged : state.globalBatchSize = o.globalBatchSize
  aligned : state.consumedSamples % o.globalBatchSize = 0

section Session

variable {o : SamplerOptions} {shuffle : ℤ → ℕ → List ℕ} {W r : ℕ} {state : SamplerState}
  {rounds : List Round}

theorem rankRounds_of_accepted (h : Accepted o W state) (hr : r < W) :
    rankRounds o shuffle W state r =
      (samplerOf o W state.consumedSamples state.epoch r).iter shuffle := by
  have hinit : DatasetBatchSampler.init o r W 0 = .ok (samplerOf o W 0 0 r) := by
    unfold DatasetBatchSampler.init
    rw [if_neg h.noMapping, if_neg h.totalSamples, if_neg h.microBatchSize, if_neg h.dpWorldSize,
      if_neg (Nat.not_lt_zero _), if_neg (not_le.2 hr), if_neg h.globalBatchSize,
      if_neg (not_not.2 h.divisible), if_neg h.dropLast]
    rfl
  have hload : (samplerOf o W 0 0 r).loadStateDict state =
      .ok (samplerOf o W state.consumedSamples state.epoch r) := by
    unfold DatasetBatchSampler.loadStateDict
    exact (if_neg h.sharding).trans ((if_neg h.consumed).trans ((if_neg (not_not.2 h.unchanged)).trans
      (if_neg (not_not.2 h.aligned))))
  simp only [rankRounds, hinit, bind, Except.bind, hload]

theorem accepted_of_rankRounds (h : rankRounds o shuffle W state r = .ok rounds) :
    Accepted o W state := by
  unfold rankRounds at h
  cases hinit : DatasetBatchSampler.init o r W 0 with
  | error e => simp [hinit, bind, Except.bind] at h
  | ok s =>
    cases hload : s.loadStateDict state with
    | error e => simp [hinit, hload, bind, Except.bind] at h
    | ok s' =>
      unfold DatasetBatchSampler.init at hinit
      split_ifs at hinit with h1 h2 h3 h4 h5 h6 h7 h8 h9
      obtain rfl := Except.ok.inj hinit
      unfold DatasetBatchSampler.loadStateDict at hload
      split_ifs at hload with h10 h11 h12 h13
      exact ⟨h1, h2, h3, h4, h7, not_not.1 h8, h9, h10, h11, not_not.1 h12, not_not.1 h13⟩

/-- The samples of an uninterrupted epoch, in the order of their positions. -/
def epochOrder (o : SamplerOptions) (shuffle : ℤ → ℕ → List ℕ) (epoch W : ℕ) : List ℕ :=
  match o.samplerType with
  | .single => (List.range (if o.dropLast then o.activeSamples W else o.totalSamples)).map
      o.resolveIndex
  | .cyclic _ seed => shuffle (seed + epoch) (o.activeSamples W)

theorem gmb_dvd (h : Accepted o W state) {k : ℕ} (hk : o.globalBatchSize ∣ k) :
    o.globalMicroBatchSize W ∣ k :=
  (Nat.dvd_of_mod_eq_zero h.divisible).trans hk

/-- The rounds of a rank. -/
def roundsOf (o : SamplerOptions) (shuffle : ℤ → ℕ → List ℕ) (W : ℕ) (state : SamplerState)
    (r : ℕ) : List Round :=
  match o.samplerType with
  | .single => (samplerOf o W state.consumedSamples state.epoch r).singleRounds o.totalSamples
      state.consumedSamples
  | .cyclic dataSharding seed =>
      let s := samplerOf o W state.consumedSamples state.epoch r
      s.cyclicRounds state.consumedSamples [] (s.rankIndices shuffle dataSharding seed)

theorem rounds_eq (h : rankRounds o shuffle W state r = .ok rounds) (hr : r < W) :
    rounds = roundsOf o shuffle W state r ∧
      (o.samplerType ≠ .single → 0 < o.activeSamples W) := by
  rw [rankRounds_of_accepted (accepted_of_rankRounds h) hr] at h
  unfold DatasetBatchSampler.iter at h
  unfold roundsOf
  cases htype : o.samplerType with
  | single =>
    simp only [samplerOf, htype, Except.ok.injEq] at h
    exact ⟨h.symm, fun hne => absurd rfl hne⟩
  | cyclic dataSharding seed =>
    simp only [samplerOf, htype] at h
    by_cases hactive : o.activeSamples W = 0
    · exact absurd (h.symm.trans (if_pos hactive)) (by simp)
    · by_cases haligned : state.consumedSamples % o.globalMicroBatchSize W ≠ 0
      · exact absurd (h.symm.trans ((if_neg hactive).trans (if_pos haligned))) (by simp)
      · have hok := h.symm.trans ((if_neg hactive).trans (if_neg haligned))
        exact ⟨Except.ok.inj hok, fun _ => Nat.pos_of_ne_zero hactive⟩

theorem rankRounds_ok (h : Accepted o W state) (hr : r < W)
    (hactive : o.samplerType ≠ .single → 0 < o.activeSamples W) :
    rankRounds o shuffle W state r = .ok (roundsOf o shuffle W state r) := by
  rw [rankRounds_of_accepted h hr]
  unfold DatasetBatchSampler.iter roundsOf
  cases htype : o.samplerType with
  | single => simp only [samplerOf, htype]
  | cyclic dataSharding seed =>
    have hpos : o.activeSamples W ≠ 0 := (hactive (by simp [htype])).ne'
    have haligned : state.consumedSamples % o.globalMicroBatchSize W = 0 :=
      Nat.mod_eq_zero_of_dvd (gmb_dvd h (Nat.dvd_of_mod_eq_zero h.aligned))
    simp only [samplerOf, htype]
    exact (if_neg hpos).trans (if_neg (not_not.2 haligned))

/-- A session that does not raise: every rank makes its rounds. -/
theorem session_iff (hW : 0 < W) {stop : ℕ} {indices : List ℕ} :
    session o shuffle state ⟨W, stop⟩ = .ok indices ↔
      Accepted o W state ∧ (o.samplerType ≠ .single → 0 < o.activeSamples W) ∧
      indices = (List.range W).flatMap fun r =>
        yielded (roundsUntil stop (roundsOf o shuffle W state r)) := by
  unfold session
  constructor
  · intro h
    cases hmap : (List.range W).mapM (rankRounds o shuffle W state) with
    | error e => simp [hmap, bind, Except.bind] at h
    | ok rounds =>
      simp only [hmap, bind, Except.bind, pure, Except.pure, Except.ok.injEq] at h
      have hall := forall₂_of_mapM hmap
      obtain ⟨rounds₀, h₀⟩ := exists_of_forall₂ hall (List.mem_range.2 hW)
      refine ⟨accepted_of_rankRounds h₀, (rounds_eq h₀ hW).2, ?_⟩
      rw [← h]
      refine flatMap_of_forall₂ hall fun r hr y hy => ?_
      rw [(rounds_eq hy (List.mem_range.1 hr)).1]
  · rintro ⟨hacc, hactive, rfl⟩
    have hmap := mapM_of_forall (f := rankRounds o shuffle W state)
      (g := roundsOf o shuffle W state) (l := List.range W)
      fun r hr => rankRounds_ok hacc (List.mem_range.1 hr) hactive
    simp only [hmap, bind, Except.bind, pure, Except.pure, List.flatMap_map]

/-! ### What a session yields -/

theorem le_sub_mod {g k total : ℕ} (h : g ∣ k) (hk : k ≤ total) : k ≤ total - total % g := by
  have hsub : (total - k) % g = total % g := by
    conv_rhs => rw [← Nat.sub_add_cancel hk, Nat.add_mod, Nat.mod_eq_zero_of_dvd h, Nat.add_zero,
      Nat.mod_mod]
  have := Nat.mod_le (total - k) g
  omega

theorem drop_take_range {n c stop : ℕ} : ((List.range n).drop c).take (stop - c) =
    List.range' c (min stop n - c) := by
  refine List.ext_getElem (by simp; omega) fun i h1 h2 => by simp

theorem perm_roundsOf (hshuffle : ∀ seed n, (shuffle seed n).Perm (List.range n))
    (hsharding : o.samplerType.dataSharding = false) (hacc : Accepted o W state) {stop : ℕ}
    (hstop : o.globalBatchSize ∣ stop ∨ stop = o.totalSamples)
    (hcs : state.consumedSamples ≤ stop)
    (hle : o.samplerType = .single → stop ≤ o.totalSamples) :
    ((List.range W).flatMap fun r =>
      yielded (roundsUntil stop (roundsOf o shuffle W state r))).Perm
      (((epochOrder o shuffle state.epoch W).drop state.consumedSamples).take
        (stop - state.consumedSamples)) := by
  have hmicro := Nat.pos_of_ne_zero hacc.microBatchSize
  have hworld := Nat.pos_of_ne_zero hacc.dpWorldSize
  have hc := gmb_dvd hacc (Nat.dvd_of_mod_eq_zero hacc.aligned)
  have hstop' : o.globalMicroBatchSize W ∣ stop ∨ stop = o.totalSamples :=
    hstop.imp_left (gmb_dvd hacc)
  unfold roundsOf epochOrder
  cases htype : o.samplerType with
  | single =>
    simp only
    rw [← List.map_drop, ← List.map_take, drop_take_range]
    exact perm_singleRounds hmicro hworld (Nat.le_add_left _ _) (Or.inl hc)
      (not_lt.1 hacc.consumed) hstop' hcs (hle htype)
  | cyclic dataSharding seed =>
    obtain rfl : dataSharding = false := by simpa [htype, SamplerType.dataSharding] using hsharding
    simp only
    have hdvd : o.globalMicroBatchSize W ∣ o.activeSamples W - state.consumedSamples :=
      Nat.dvd_sub (Nat.dvd_sub_mod _) hc
    have hlen : ((shuffle (seed + state.epoch) (o.activeSamples W)).drop
        state.consumedSamples).length = (o.activeSamples W - state.consumedSamples) /
          o.globalMicroBatchSize W * o.globalMicroBatchSize W := by
      rw [List.length_drop, (hshuffle _ _).length_eq, List.length_range, Nat.div_mul_cancel hdvd]
    refine (perm_cyclicRounds hmicro hworld hlen).trans (List.Perm.of_eq ?_)
    rcases hstop' with hstop' | rfl
    · rw [Nat.div_mul_cancel (Nat.dvd_sub hstop' hc)]
    · have hactive : o.activeSamples W ≤ o.totalSamples := Nat.sub_le _ _
      rw [Nat.div_mul_cancel hdvd] at hlen
      rw [List.take_of_length_le, List.take_of_length_le]
      · omega
      · rw [hlen, ← Nat.div_mul_cancel hdvd]
        exact Nat.mul_le_mul_right _ (Nat.div_le_div_right (by omega))

theorem le_of_mem_singleRounds {s : DatasetBatchSampler} (fuel : ℕ) {c : ℕ} (hc : c ≤ s.totalSamples)
    {round : Round} (h : round ∈ s.singleRounds fuel c) :
    c ≤ round.2 ∧ round.2 ≤ s.totalSamples := by
  induction fuel generalizing c with
  | zero => cases h
  | succ fuel ih =>
    rw [singleRounds] at h
    simp only at h
    split_ifs at h with hlt hbreak hafter
    · rw [List.mem_singleton.1 h]
      exact ⟨hc, le_rfl⟩
    · rcases List.mem_cons.1 h with rfl | h
      · simp only
        omega
      · have := ih (by omega) h
        omega
    · rcases List.mem_cons.1 h with rfl | h
      · simp only
        omega
      · have := ih (by omega) h
        omega
    · cases h

theorem le_of_mem_cyclicRounds {s : DatasetBatchSampler} {c : ℕ} {localBatch l : List ℕ}
    {round : Round} (h : round ∈ s.cyclicRounds c localBatch l) : c ≤ round.2 := by
  induction l generalizing c localBatch with
  | nil => cases h
  | cons a l ih =>
    rw [cyclicRounds] at h
    split_ifs at h
    · rcases List.mem_cons.1 h with rfl | h
      · exact Nat.le_add_right _ _
      · exact (Nat.le_add_right _ _).trans (ih h)
    · exact ih h

theorem consumedAfter_of_forall (rounds : List Round) {start : ℕ} (stop : ℕ) (p : ℕ → Prop)
    (hstart : p start)
    (h : ∀ round ∈ rounds, p round.2) : p (consumedAfter start (roundsUntil stop rounds)) := by
  unfold consumedAfter
  cases hlast : (roundsUntil stop rounds).getLast? with
  | none => exact hstart
  | some round => exact h round (List.takeWhile_subset _ (List.mem_of_getLast? hlast))

theorem bounds_of_mem_roundsOf (hacc : Accepted o W state) {round : Round}
    (h : round ∈ roundsOf o shuffle W state r) :
    state.consumedSamples ≤ round.2 ∧ (o.samplerType = .single → round.2 ≤ o.totalSamples) := by
  have hc := not_lt.1 hacc.consumed
  unfold roundsOf at h
  cases htype : o.samplerType with
  | single =>
    simp only [htype] at h
    have hbounds := le_of_mem_singleRounds _ (s := samplerOf o W _ _ r) hc h
    exact ⟨hbounds.1, fun _ => hbounds.2⟩
  | cyclic dataSharding seed =>
    simp only [htype] at h
    exact ⟨le_of_mem_cyclicRounds h, fun hne => by cases hne⟩

/-- A state that is saved lies between the state that was loaded and the end of the samples. -/
theorem bounds_of_saved (hacc : Accepted o W state) {stop : ℕ}
    (h : consumedAfter state.consumedSamples
      (roundsUntil stop (roundsOf o shuffle W state r)) = stop) :
    state.consumedSamples ≤ stop ∧ (o.samplerType = .single → stop ≤ o.totalSamples) := by
  have hbounds := consumedAfter_of_forall (roundsOf o shuffle W state r) stop
    (fun k => state.consumedSamples ≤ k ∧ (o.samplerType = .single → k ≤ o.totalSamples))
    ⟨le_rfl, fun _ => not_lt.1 hacc.consumed⟩ fun round hround => bounds_of_mem_roundsOf hacc hround
  rwa [h] at hbounds

end Session

/-! ### Runs -/

section Run

variable {o : SamplerOptions} {shuffle : ℤ → ℕ → List ℕ} {W last : ℕ} {state : SamplerState}
  {sessions : List Session} {indices : List ℕ}

/-- The sessions of a cyclic epoch that yield something shuffle as many indices as the last. -/
def KeepsRegion (o : SamplerOptions) (last : ℕ) : ℕ → List Session → Prop
  | _, [] => True
  | start, s :: sessions => (o.samplerType = .single ∨ start = s.stop ∨
      o.activeSamples s.dpWorldSize = o.activeSamples last) ∧ KeepsRegion o last s.stop sessions

/-- Two world sizes have the same order up to a batch boundary. -/
theorem epochOrder_congr {state' : SamplerState} {epoch c stop : ℕ} (hacc : Accepted o W state)
    (hacc' : Accepted o last state') (hstop : o.globalBatchSize ∣ stop)
    (hle : o.samplerType = .single → stop ≤ o.totalSamples)
    (hkeep : o.samplerType = .single ∨ c = stop ∨ o.activeSamples W = o.activeSamples last) :
    ((epochOrder o shuffle epoch W).drop c).take (stop - c) =
      ((epochOrder o shuffle epoch last).drop c).take (stop - c) := by
  rcases hkeep with hsingle | rfl | hactive
  · have h1 : stop ≤ o.activeSamples W := le_sub_mod (gmb_dvd hacc hstop) (hle hsingle)
    have h2 : stop ≤ o.activeSamples last := le_sub_mod (gmb_dvd hacc' hstop) (hle hsingle)
    have h3 := hle hsingle
    simp only [epochOrder, hsingle, ← List.map_drop, ← List.map_take, drop_take_range]
    congr 2
    split_ifs <;> omega
  · simp
  · simp only [epochOrder, hactive]

theorem perm_of_epochRun (hshuffle : ∀ seed n, (shuffle seed n).Perm (List.range n))
    (hsharding : o.samplerType.dataSharding = false)
    (hrun : epochRun o shuffle state sessions last = some indices)
    (hkeep : KeepsRegion o last state.consumedSamples sessions) :
    indices.Perm ((epochOrder o shuffle state.epoch last).drop state.consumedSamples) ∧
      (o.samplerType ≠ .single → 0 < o.activeSamples last) ∧
      ∃ state', Accepted o last state' := by
  induction sessions generalizing state indices with
  | nil =>
    rw [epochRun] at hrun
    split_ifs at hrun with hlast
    cases hs : session o shuffle state ⟨last, o.totalSamples⟩ with
    | error e => simp [hs, Except.toOption] at hrun
    | ok xs =>
      obtain ⟨hacc, hactive, hxs⟩ := (session_iff hlast).1 hs
      obtain rfl : xs = indices := by simpa [hs, Except.toOption] using hrun
      refine ⟨?_, hactive, state, hacc⟩
      have hperm := perm_roundsOf hshuffle hsharding hacc (Or.inr rfl) (not_lt.1 hacc.consumed)
        fun _ => le_rfl
      rw [hxs]
      refine hperm.trans (List.Perm.of_eq (List.take_of_length_le ?_))
      have hlen : (epochOrder o shuffle state.epoch last).length ≤ o.totalSamples := by
        have : o.activeSamples last ≤ o.totalSamples := Nat.sub_le _ _
        unfold epochOrder
        cases o.samplerType with
        | single =>
          simp only [List.length_map, List.length_range]
          split_ifs <;> omega
        | cyclic dataSharding seed => simpa [(hshuffle _ _).length_eq] using this
      rw [List.length_drop]
      omega
  | cons s sessions ih =>
    rw [epochRun] at hrun
    split_ifs at hrun with hs
    obtain ⟨hW, hsaves⟩ := hs
    cases hsession : session o shuffle state s with
    | error e => simp [hsession, Except.toOption] at hrun
    | ok xs =>
      cases hrest : epochRun o shuffle
          { state with consumedSamples := s.stop, dpWorldSize := s.dpWorldSize } sessions last with
      | none => simp [hsession, hrest, Except.toOption] at hrun
      | some ys =>
        obtain rfl : xs ++ ys = indices := by
          simpa [hsession, hrest, Except.toOption] using hrun
        obtain ⟨hys, hactive, state', hacc'⟩ := ih hrest hkeep.2
        obtain ⟨hacc, hactiveW, hxs⟩ := (session_iff hW).1 hsession
        simp only [savesAt, Bool.and_eq_true, beq_iff_eq, List.all_eq_true] at hsaves
        obtain ⟨hmod, hranks⟩ := hsaves
        have hsaved := hranks 0 (List.mem_range.2 hW)
        rw [rankRounds_ok hacc hW hactiveW] at hsaved
        obtain ⟨hcs, hle⟩ := bounds_of_saved hacc (beq_iff_eq.1 hsaved)
        have hdvd := Nat.dvd_of_mod_eq_zero hmod
        have hperm := perm_roundsOf hshuffle hsharding hacc (Or.inl hdvd) hcs hle
        rw [← hxs, epochOrder_congr hacc hacc' hdvd hle hkeep.1] at hperm
        refine ⟨(hperm.append hys).trans (List.Perm.of_eq ?_), hactive, state', hacc'⟩
        have hdrop : (epochOrder o shuffle state.epoch last).drop s.stop =
            ((epochOrder o shuffle state.epoch last).drop state.consumedSamples).drop
              (s.stop - state.consumedSamples) := by
          rw [List.drop_drop, Nat.add_sub_cancel' hcs]
        rw [hdrop, List.take_append_drop]

theorem Accepted.epochStart {state' : SamplerState} (h : Accepted o W state') (epoch first : ℕ)
    (hsharding : o.samplerType.dataSharding = false) : Accepted o W (epochStart o epoch first) where
  noMapping := h.noMapping
  totalSamples := h.totalSamples
  microBatchSize := h.microBatchSize
  dpWorldSize := h.dpWorldSize
  globalBatchSize := h.globalBatchSize
  divisible := h.divisible
  dropLast := h.dropLast
  sharding := by simp [hsharding]
  consumed := Nat.not_lt_zero _
  unchanged := rfl
  aligned := Nat.zero_mod _

theorem nodup_epochOrder (hshuffle : ∀ seed n, (shuffle seed n).Perm (List.range n))
    (hmapping : ∀ mapping, o.indexMapping = some mapping →
      Set.InjOn mapping (Set.Iio o.totalSamples)) (epoch : ℕ) :
    (epochOrder o shuffle epoch W).Nodup := by
  unfold epochOrder
  cases o.samplerType with
  | cyclic dataSharding seed => exact (hshuffle _ _).nodup_iff.2 List.nodup_range
  | single =>
    have hlt : ∀ i ∈ List.range (if o.dropLast then o.activeSamples W else o.totalSamples),
        i < o.totalSamples := by
      intro i hi
      have hactive : o.activeSamples W ≤ o.totalSamples := Nat.sub_le _ _
      have := List.mem_range.1 hi
      split_ifs at this <;> omega
    refine List.nodup_range.map_on fun i hi j hj hij => ?_
    unfold SamplerOptions.resolveIndex at hij
    cases hmap : o.indexMapping with
    | none => simpa [hmap] using hij
    | some mapping =>
      simp only [hmap] at hij
      exact hmapping mapping hmap (hlt i hi) (hlt j hj) hij

/-- An epoch in several sessions: no index twice, and the indices of an uninterrupted epoch of the
last world size, when every session that yields something shuffles as many indices as the last. -/
theorem epochRun_perm (o : SamplerOptions) (shuffle : ℤ → ℕ → List ℕ)
    (hshuffle : ∀ seed n, (shuffle seed n).Perm (List.range n))
    (hsharding : o.samplerType.dataSharding = false) (epoch first last : ℕ)
    (sessions : List Session) (indices : List ℕ)
    (hrun : epochRun o shuffle (epochStart o epoch first) sessions last = some indices)
    (hkeep : KeepsRegion o last 0 sessions) :
    (∃ uninterrupted, epochRun o shuffle (epochStart o epoch first) [] last = some uninterrupted ∧
      indices.Perm uninterrupted) ∧
    ((∀ mapping, o.indexMapping = some mapping → Set.InjOn mapping (Set.Iio o.totalSamples)) →
      indices.Nodup) := by
  obtain ⟨hperm, hactive, state', hacc⟩ := perm_of_epochRun hshuffle hsharding hrun hkeep
  constructor
  · have hlast := Nat.pos_of_ne_zero hacc.dpWorldSize
    have hsession : session o shuffle (epochStart o epoch first) ⟨last, o.totalSamples⟩ = .ok _ :=
      (session_iff hlast).2 ⟨hacc.epochStart epoch first hsharding, hactive, rfl⟩
    obtain ⟨whole, hwhole⟩ : ∃ whole,
        epochRun o shuffle (epochStart o epoch first) [] last = some whole := by
      rw [epochRun, if_pos hlast, hsession]
      exact ⟨_, rfl⟩
    exact ⟨_, hwhole, hperm.trans (perm_of_epochRun hshuffle hsharding hwhole trivial).1.symm⟩
  · intro hmapping
    have hnodup := nodup_epochOrder (W := last) hshuffle hmapping epoch
    exact hperm.nodup_iff.2 (hnodup.sublist (List.drop_sublist _ _))

/-- What `random.Random(0).shuffle` makes of four and of six indices. -/
def shuffleSeedZero : ℤ → ℕ → List ℕ
  | _, 4 => [2, 0, 1, 3]
  | _, 6 => [4, 2, 1, 0, 5, 3]
  | _, n => List.range n

theorem perm_shuffleSeedZero (seed : ℤ) (n : ℕ) : (shuffleSeedZero seed n).Perm (List.range n) := by
  unfold shuffleSeedZero
  split
  · decide
  · decide
  · exact List.Perm.refl _

/-- Four samples: the first two on one rank, the others on two ranks. -/
theorem epochRun_perm_four : ([2, 0, 1, 3] : List ℕ).Nodup :=
  (epochRun_perm ⟨4, 1, 2, true, none, .cyclic false 0⟩ shuffleSeedZero perm_shuffleSeedZero rfl 0 1 2
    [⟨1, 2⟩] [2, 0, 1, 3] (by decide) ⟨Or.inr (Or.inr rfl), trivial⟩).2 (by simp)

/-- Six samples: four on four ranks, which shuffle four indices, the others on two ranks, which
shuffle six; index 3 comes twice and index 4 never. -/
theorem epochRun_six_repeats :
    epochRun ⟨6, 1, 4, true, none, .cyclic false 0⟩ shuffleSeedZero
        (epochStart ⟨6, 1, 4, true, none, .cyclic false 0⟩ 0 4) [⟨4, 4⟩] 2 =
      some [2, 0, 1, 3, 5, 3] ∧ ¬ ([2, 0, 1, 3, 5, 3] : List ℕ).Nodup := by
  decide

end Run

end HyperParallel.Data

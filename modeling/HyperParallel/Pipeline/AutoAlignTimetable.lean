import HyperParallel.Pipeline.AutoAlign

/-!
# Timetables for a pure compute order

A timetable gives every step a column and observes the dependencies, the warm-up pads and the
cooldown rhythm. The simulation is never behind one, so it loses no step exactly where one fits.
-/

namespace HyperParallel.Pipeline

section Runs

variable {style : Style} {items : ℕ → List PadItem} {N R : ℕ}

/-! ### Timetables -/

/-- Two backwards in a row behind the last forward of an order. -/
def CooldownPair (order : List PadItem) (j : ℕ) : Prop :=
  ∃ x y, order[j]? = some (.step x) ∧ order[j + 1]? = some (.step y) ∧ x.type = .bwd ∧
    y.type = .bwd ∧ (padSteps (order.drop j)).countP (·.type = .fwd) = 0

variable (style items N R) in
/-- Columns for the steps and the pads of every rank: in the order of the rank, two apart in the
cooldown rhythm, and each step behind the step it waits for. -/
structure Timetable (column : ℕ → ℕ → ℕ) : Prop where
  order : ∀ r < R, ∀ j, j + 1 < (items r).length → column r j < column r (j + 1)
  rhythm : ∀ r < R, ∀ j, CooldownPair (items r) j → column r j + 2 ≤ column r (j + 1)
  waits : ∀ r < R, ∀ (j : ℕ) x y, (items r)[j]? = some (.step x) →
    dependency style N R r x = some y →
    ∃ r' < R, ∃ j' : ℕ, (items r')[j']? = some (.step y) ∧ column r' j' < column r j

variable (items R) in
/-- All steps stand before column `T`. -/
def FitsIn (column : ℕ → ℕ → ℕ) (T : ℕ) : Prop :=
  ∀ r < R, ∀ (j : ℕ) x, (items r)[j]? = some (.step x) → column r j < T

variable {column : ℕ → ℕ → ℕ}

/-- Where a rank has just emitted a backward of its cooldown, the entry before its cursor is it. -/
theorem last_of_cooldownSkip (hd : Distinct items R) {r : ℕ} (hr : r < R) {t : ℕ} {y : LeafStep}
    (hy : (items r)[cursorAt style items N R (t + 1) r]? = some (.step y))
    (hskip : ((alignAt style items N R (t + 1)).ranks r).cooldownSkip y = true) :
    cursorAt style items N R (t + 1) r = cursorAt style items N R t r + 1 ∧
      CooldownPair (items r) (cursorAt style items N R t r) := by
  unfold cursorAt at hy ⊢
  rw [ranks_succ _ _ hd hr] at hy hskip ⊢
  simp only [AlignRank.cooldownSkip, Bool.and_eq_true, decide_eq_true_eq] at hskip
  obtain ⟨⟨_, hbwd⟩, hlast⟩ := hskip
  have htracks := (alignInv_at style N hd t).tracks r hr
  unfold nextAt at hy hlast ⊢
  rcases ((alignAt style items N R t).ranks r).advance_cases (items r) (fun step =>
    stepDepReady (alignAt style items N R t).done t (dependency style N R r step)) with
    ⟨hnone, heq⟩ | ⟨_, heq⟩ | ⟨step, _, _, heq⟩ | ⟨x, hx, _, _, heq⟩
  · rw [heq] at hy
    rw [hnone] at hy
    cases hy
  · rw [heq] at hlast
    cases hlast
  · rw [heq] at hlast
    cases hlast
  · rw [heq] at hy hlast ⊢
    simp only [AlignRank.emitStep, AlignRank.inCooldown, Bool.and_eq_true,
      decide_eq_true_eq] at hlast
    exact ⟨rfl, x, y, hx, hy, hlast.2, hbwd, htracks.remainingFwd ▸ hlast.1⟩

/-- The simulation emits every entry at its column in a timetable, or before. -/
theorem Timetable.le (hd : Distinct items R) (h : Timetable style items N R column) (t : ℕ) :
    ∀ r < R, ∀ j < (items r).length, column r j < t → j < cursorAt style items N R t r := by
  induction t using Nat.strong_induction_on with
  | _ t ih =>
    intro r hr j hj hlt
    obtain ⟨u, rfl⟩ : ∃ u, t = u + 1 := ⟨t - 1, by omega⟩
    have hmono := (cursorAt_succ style N hd hr u).1
    by_cases hbefore : j < cursorAt style items N R u r
    · omega
    have hcolumn : column r j = u := by
      by_contra hne
      exact hbefore (ih u (by omega) r hr j hj (by omega))
    have hcursor : cursorAt style items N R u r = j := by
      cases j with
      | zero => omega
      | succ j =>
        have hprev := ih u (by omega) r hr j (by omega) (by have := h.order r hr j hj; omega)
        omega
    have hinv := alignInv_at style N hd u
    have hnext : cursorAt style items N R (u + 1) r =
        (nextAt style items N R (alignAt style items N R u) u r).1.cursor := by
      rw [cursorAt, ranks_succ _ _ hd hr]
    rw [hnext]
    unfold nextAt
    rcases ((alignAt style items N R u).ranks r).advance_cases (items r) (fun step =>
      stepDepReady (alignAt style items N R u).done u (dependency style N R r step)) with
      ⟨hnone, _⟩ | ⟨_, heq⟩ | ⟨x, hx, hwait, _⟩ | ⟨x, _, _, _, heq⟩
    · have hlen := List.getElem?_eq_none_iff.1 hnone
      unfold cursorAt at hcursor
      omega
    · rw [heq]
      unfold cursorAt at hcursor
      exact hcursor ▸ Nat.lt_succ_self _
    · exfalso
      have hxj : (items r)[j]? = some (.step x) := by
        rw [← hcursor]
        exact hx
      rcases hwait with hskip | hready
      · -- the rhythm: the timetable would have had the step before in an earlier column
        cases u with
        | zero => simp [AlignRank.cooldownSkip, alignAt, alignInit] at hskip
        | succ u =>
          obtain ⟨hsucc, hpair⟩ := last_of_cooldownSkip hd hr hx hskip
          have hrhythm := h.rhythm r hr _ hpair
          rw [← hsucc, hcursor, hcolumn] at hrhythm
          have hlen : cursorAt style items N R u r < (items r).length := by omega
          exact absurd (ih u (by omega) r hr _ hlen (by omega)) (lt_irrefl _)
      · cases hdep : dependency style N R r x with
        | none =>
          rw [hdep] at hready
          cases hready
        | some y =>
          obtain ⟨r', hr', j', hj', hbefore'⟩ := h.waits r hr j x y hxj hdep
          have hlen := (List.getElem?_eq_some_iff.1 hj').1
          have hemitted := ih u (by omega) r' hr' j' hlen (by omega)
          obtain ⟨t', ht'⟩ := (hinv.done y).2 ⟨r', hr', j', hemitted, hj'⟩
          rw [hdep] at hready
          simp [stepDepReady, ht', hinv.before y t' ht'] at hready
    · rw [heq]
      unfold cursorAt at hcursor
      exact hcursor ▸ Nat.lt_succ_self _

/-- The column in which a cursor passes an entry. -/
theorem exists_column (hd : Distinct items R) {r : ℕ} (hr : r < R) {j T : ℕ}
    (h : j < cursorAt style items N R T r) :
    ∃ t < T, cursorAt style items N R t r = j ∧ cursorAt style items N R (t + 1) r = j + 1 := by
  induction T with
  | zero => exact absurd h (Nat.not_lt_zero j)
  | succ T ih =>
    by_cases hbefore : j < cursorAt style items N R T r
    · obtain ⟨t, ht, hcolumn⟩ := ih hbefore
      exact ⟨t, by omega, hcolumn⟩
    · have hsucc := cursorAt_succ style N hd hr T
      exact ⟨T, Nat.lt_succ_self T, by omega, by omega⟩

/-- What a rank has done in the column in which its cursor passes a step. -/
theorem ready_of_passed (hd : Distinct items R) {r : ℕ} (hr : r < R) {t j : ℕ} {x : LeafStep}
    (hx : (items r)[j]? = some (.step x)) (hj : cursorAt style items N R t r = j)
    (hsucc : cursorAt style items N R (t + 1) r = j + 1) :
    ((alignAt style items N R t).ranks r).cooldownSkip x = false ∧
      stepDepReady (alignAt style items N R t).done t (dependency style N R r x) = true ∧
      (alignAt style items N R (t + 1)).ranks r =
        ((alignAt style items N R t).ranks r).emitStep x := by
  subst hj
  have hranks := ranks_succ style N hd hr t
  unfold cursorAt at hx hsucc
  unfold nextAt at hranks
  rcases ((alignAt style items N R t).ranks r).advance_cases (items r) (fun step =>
    stepDepReady (alignAt style items N R t).done t (dependency style N R r step)) with
    ⟨hnone, _⟩ | ⟨hpad, _⟩ | ⟨y, _, _, heq⟩ | ⟨y, hy, hskip, hready, heq⟩
  · rw [hx] at hnone
    cases hnone
  · rw [hx] at hpad
    cases hpad
  · rw [hranks, heq] at hsucc
    exact absurd hsucc (Nat.ne_of_lt (Nat.lt_succ_self _))
  · rw [hx] at hy
    cases hy
    exact ⟨hskip, hready, by rw [hranks, heq]⟩

/-- The columns in which a simulation that emits every step does so are a timetable. -/
theorem exists_timetable (hd : Distinct items R) {T : ℕ}
    (hall : ∀ r < R, ∀ (j : ℕ) x, (items r)[j]? = some (.step x) →
      j < cursorAt style items N R T r) :
    ∃ column, Timetable style items N R column ∧ FitsIn items R column T := by
  have hcolumn : ∀ r j, ∃ t, r < R →
      (j < cursorAt style items N R T r → t < T ∧ cursorAt style items N R t r = j ∧
        cursorAt style items N R (t + 1) r = j + 1) ∧
      (cursorAt style items N R T r ≤ j → t = T + 2 * j) := by
    intro r j
    by_cases hr : r < R
    · by_cases hj : j < cursorAt style items N R T r
      · obtain ⟨t, ht⟩ := exists_column hd hr hj
        exact ⟨t, fun _ => ⟨fun _ => ht, fun hle => by omega⟩⟩
      · exact ⟨T + 2 * j, fun _ => ⟨fun hlt => absurd hlt hj, fun _ => rfl⟩⟩
    · exact ⟨0, fun hr' => absurd hr' hr⟩
  choose column hcolumn using hcolumn
  have hpassed : ∀ r < R, ∀ j, j < cursorAt style items N R T r →
      column r j < T ∧ cursorAt style items N R (column r j) r = j ∧
        cursorAt style items N R (column r j + 1) r = j + 1 :=
    fun r hr j hj => (hcolumn r j hr).1 hj
  have hlt : ∀ r < R, ∀ j, j + 1 < cursorAt style items N R T r →
      column r j < column r (j + 1) := by
    intro r hr j hj
    obtain ⟨_, hat, _⟩ := hpassed r hr j (by omega)
    obtain ⟨_, hat', _⟩ := hpassed r hr (j + 1) hj
    by_contra hle
    have := cursorAt_mono style N hd hr (Nat.le_of_not_lt hle)
    omega
  refine ⟨column, ⟨?_, ?_, ?_⟩, fun r hr j x hx => (hpassed r hr j (hall r hr j x hx)).1⟩
  · intro r hr j _
    by_cases hj : j + 1 < cursorAt style items N R T r
    · exact hlt r hr j hj
    · have hnext := (hcolumn r (j + 1) hr).2 (by omega)
      by_cases hj' : j < cursorAt style items N R T r
      · have := (hpassed r hr j hj').1
        omega
      · have := (hcolumn r j hr).2 (by omega)
        omega
  · rintro r hr j ⟨x, y, hx, hy, hxtype, hytype, hcooldown⟩
    have hj := hall r hr (j + 1) y hy
    obtain ⟨_, hat, hsucc⟩ := hpassed r hr j (by omega)
    obtain ⟨_, hat', hsucc'⟩ := hpassed r hr (j + 1) hj
    have hstep := hlt r hr j hj
    by_contra hle
    have heq : column r (j + 1) = column r j + 1 := by omega
    rw [heq] at hat' hsucc'
    -- the rank would have had to skip the column after a backward of the cooldown
    have hemit := (ready_of_passed hd hr hx hat hsucc).2.2
    have hskip := (ready_of_passed hd hr hy hat' hsucc').1
    have htracks := (alignInv_at style N hd (column r j)).tracks r hr
    have hremaining : ((alignAt style items N R (column r j)).ranks r).remainingFwd = 0 := by
      rw [htracks.remainingFwd, ← hcooldown]
      unfold cursorAt at hat
      rw [hat]
    rw [hemit] at hskip
    simp [AlignRank.cooldownSkip, AlignRank.emitStep, AlignRank.inCooldown, hxtype, hytype,
      hremaining] at hskip
  · intro r hr j x y hx hdep
    obtain ⟨_, hat, hsucc⟩ := hpassed r hr j (hall r hr j x hx)
    have hready := (ready_of_passed hd hr hx hat hsucc).2.1
    rw [hdep] at hready
    have hinv := alignInv_at style N hd (column r j)
    cases hdone : (alignAt style items N R (column r j)).done y with
    | none => simp [stepDepReady, hdone] at hready
    | some t' =>
      obtain ⟨r', hr', j', hj', hy⟩ := (hinv.done y).1 ⟨t', hdone⟩
      refine ⟨r', hr', j', hy, ?_⟩
      obtain ⟨_, hat', _⟩ := hpassed r' hr' j' (hall r' hr' j' y hy)
      by_contra hle
      have hmono := cursorAt_mono style N hd hr' (Nat.le_of_not_lt hle)
      have hcursor : j' < cursorAt style items N R (column r j) r' := hj'
      omega

/-- The simulation emits every step exactly where some timetable has them all in time. -/
theorem emits_iff_timetable (hd : Distinct items R) (T : ℕ) :
    (∀ r < R, ((alignAt style items N R T).ranks r).aligned.reduceOption = padSteps (items r)) ↔
      ∃ column, Timetable style items N R column ∧ FitsIn items R column T := by
  have hsplit : ∀ r, padSteps (items r) =
      padSteps ((items r).take (cursorAt style items N R T r)) ++
        padSteps ((items r).drop (cursorAt style items N R T r)) := by
    intro r
    rw [← padSteps_append, List.take_append_drop]
  have haligned : ∀ r < R, ((alignAt style items N R T).ranks r).aligned.reduceOption =
      padSteps ((items r).take (cursorAt style items N R T r)) :=
    fun r hr => ((alignInv_at _ _ hd T).tracks r hr).aligned
  constructor
  · intro hall
    refine exists_timetable hd fun r hr j x hx => ?_
    by_contra hj
    have hrest : padSteps ((items r).drop (cursorAt style items N R T r)) = [] := by
      have h := hall r hr
      rw [haligned r hr, hsplit r] at h
      exact List.append_right_eq_self.1 h.symm
    have hmem : x ∈ padSteps ((items r).drop (cursorAt style items N R T r)) := by
      refine List.mem_filterMap.2 ⟨.step x, ?_, rfl⟩
      have hat : ((items r).drop (cursorAt style items N R T r))[
          j - cursorAt style items N R T r]? = some (.step x) := by
        rw [List.getElem?_drop, Nat.add_sub_cancel' (Nat.le_of_not_lt hj), hx]
      exact List.mem_of_getElem? hat
    rw [hrest] at hmem
    cases hmem
  · rintro ⟨column, htimetable, hfits⟩ r hr
    rw [haligned r hr, hsplit r]
    suffices hrest : padSteps ((items r).drop (cursorAt style items N R T r)) = [] by
      rw [hrest, List.append_nil]
    refine List.filterMap_eq_nil_iff.2 fun item hitem => ?_
    cases item with
    | pad => rfl
    | step x =>
      obtain ⟨k, hk⟩ := List.mem_iff_getElem?.1 hitem
      rw [List.getElem?_drop] at hk
      have hlen := (List.getElem?_eq_some_iff.1 hk).1
      have := htimetable.le hd T r hr _ hlen (hfits r hr _ x hk)
      omega

end Runs

/-! ### The finished schedule -/

section Schedule

variable {style : Style} {scheduler : ℕ → List (Option LeafStep)} {N R : ℕ}

/-- A pure compute schedule: forwards and backwards of the stages, each step once. -/
structure PureCompute (scheduler : ℕ → List (Option LeafStep)) (N R : ℕ) : Prop where
  stage : ∀ rank < R, ∀ x ∈ (scheduler rank).reduceOption, x.stageIndex < N
  compute : ∀ rank < R, ∀ x ∈ (scheduler rank).reduceOption, x.IsCompute
  once : ∀ rank < R, (scheduler rank).reduceOption.Nodup
  apart : ∀ rank < R, ∀ rank' < R, ∀ x ∈ (scheduler rank).reduceOption,
    x ∈ (scheduler rank').reduceOption → rank = rank'

theorem padSteps_map (order : List LeafStep) : padSteps (order.map .step) = order := by
  induction order with
  | nil => rfl
  | cons step order ih =>
    rw [List.map_cons, padSteps, List.filterMap_cons]
    exact congrArg (step :: ·) ih

theorem padSteps_padded (scheduler : ℕ → List (Option LeafStep)) (R rank : ℕ) :
    padSteps (padded scheduler R rank) = (scheduler rank).reduceOption := by
  have hpads : padSteps (List.replicate (R - 1 - rank) .pad) = [] :=
    List.filterMap_eq_nil_iff.2 fun item hitem => by rw [List.eq_of_mem_replicate hitem]; rfl
  rw [padded, padSteps_append, padSteps_append, padSteps_map, padSteps_map, hpads,
    List.append_nil, List.take_append_drop]

theorem mem_padSteps {l : List PadItem} {j : ℕ} {x : LeafStep} (h : l[j]? = some (.step x)) :
    x ∈ padSteps l :=
  List.mem_filterMap.2 ⟨_, List.mem_of_getElem? h, rfl⟩

/-- In an order without repetitions a step stands at one place. -/
theorem index_padSteps {l : List PadItem} (hl : (padSteps l).Nodup) {j j' : ℕ} {x : LeafStep}
    (hj : l[j]? = some (.step x)) (hj' : l[j']? = some (.step x)) : ¬ j < j' := by
  intro hlt
  have hsplit : padSteps l = padSteps (l.take j') ++ padSteps (l.drop j') := by
    rw [← padSteps_append, List.take_append_drop]
  rw [hsplit] at hl
  have hbefore : x ∈ padSteps (l.take j') :=
    mem_padSteps (j := j) (by rw [List.getElem?_take_of_lt hlt, hj])
  have hbehind : x ∈ padSteps (l.drop j') :=
    mem_padSteps (j := 0) (by rw [List.getElem?_drop, Nat.add_zero, hj'])
  exact List.disjoint_of_nodup_append hl hbefore hbehind

theorem PureCompute.distinct (h : PureCompute scheduler N R) : Distinct (padded scheduler R) R := by
  intro r hr r' hr' j j' x hx hx'
  have hmem := mem_padSteps hx
  have hmem' := mem_padSteps hx'
  rw [padSteps_padded] at hmem hmem'
  obtain rfl := h.apart r hr r' hr' x hmem hmem'
  have honce : (padSteps (padded scheduler R r)).Nodup := by
    rw [padSteps_padded]
    exact h.once r hr
  refine ⟨rfl, ?_⟩
  have h1 := index_padSteps honce hx hx'
  have h2 := index_padSteps honce hx' hx
  omega

theorem leaves_map_option (l : List (Option LeafStep)) :
    Order.leaves (l.map (Option.map .leaf)) = l.reduceOption := by
  induction l with
  | nil => rfl
  | cons entry l ih =>
    cases entry with
    | none => exact ih
    | some step => exact congrArg (step :: ·) ih

/-- The steps of the aligned order are those that the simulation has emitted. -/
theorem leaves_autoAligned (rank : ℕ) : (autoAligned scheduler N R style rank).leaves =
    ((alignAt style (padded scheduler R) N R (maxT (padded scheduler R) R)).ranks
      rank).aligned.reduceOption := by
  unfold autoAligned
  rw [simulateAlignedSchedule_eq, leaves_map_option]

/-- The aligned order has steps of the input only. -/
theorem mem_leaves_autoAligned (h : PureCompute scheduler N R) {rank : ℕ} (hrank : rank < R)
    {x : LeafStep} (hx : x ∈ (autoAligned scheduler N R style rank).leaves) :
    x ∈ (scheduler rank).reduceOption := by
  rw [leaves_autoAligned, ((alignInv_at _ _ h.distinct _).tracks rank hrank).aligned] at hx
  rw [← padSteps_padded scheduler R rank]
  obtain ⟨item, hitem, hstep⟩ := List.mem_filterMap.1 hx
  exact List.mem_filterMap.2 ⟨item, List.mem_of_mem_take hitem, hstep⟩

/-- The pass keeps the steps of the aligned order. -/
theorem filter_leaves_autoAlign (h : PureCompute scheduler N R) {rank : ℕ} (hrank : rank < R) :
    (insertComms (autoAligned scheduler N R style) N R style rank).leaves.filter (·.IsCompute) =
      (autoAligned scheduler N R style rank).leaves :=
  filter_leaves_insertComms_of_compute hrank fun x hx =>
    h.compute rank hrank x (mem_leaves_autoAligned h hrank hx)

/-- The pass returns, and every input step of every rank is there once, in its order. -/
def KeepsSteps (scheduler : ℕ → List (Option LeafStep)) (N R : ℕ) (style : Style) : Prop :=
  ∃ newSchedule, autoAlignAndAddSendRecv scheduler N R style = .ok newSchedule ∧
    ∀ rank < R, (newSchedule rank).leaves.filter (·.IsCompute) = (scheduler rank).reduceOption

/-- The rank that receives from a step, where another rank does: `_fwd_peer` or `_bwd_peer`. -/
def peer (style : Style) (N R : ℕ) (step : LeafStep) : Option ℕ :=
  if step.type = .fwd then fwdPeer style N R step.stageIndex
  else bwdPeer style N R step.stageIndex

/-- The peer of every step is one of the ranks. -/
def PeersExist (scheduler : ℕ → List (Option LeafStep)) (N R : ℕ) (style : Style) : Prop :=
  ∀ rank < R, ∀ x ∈ (scheduler rank).reduceOption, ∀ p ∈ peer style N R x, p < R

theorem commsForStep_lt_iff {rank : ℕ} (hrank : rank < R) {x : LeafStep} (hx : x.IsCompute) :
    (∀ comm ∈ commsForStep style N R rank x, comm.1 < R) ↔ ∀ p ∈ peer style N R x, p < R := by
  rcases hx with hx | hx
  · cases hp : fwdPeer style N R x.stageIndex <;> simp [commsForStep, peer, hx, hp, hrank]
  · cases hp : bwdPeer style N R x.stageIndex <;> simp [commsForStep, peer, hx, hp, hrank]

/-- The steps in one global order, each behind the step of another rank that it needs. -/
def Executable (scheduler : ℕ → List (Option LeafStep)) (N R : ℕ) (style : Style) : Prop :=
  ∃ order : List (ℕ × LeafStep),
    (∀ rank < R, forRank rank order = (scheduler rank).reduceOption) ∧
    ∀ l₁ rank x l₂, order = l₁ ++ (rank, x) :: l₂ → ∀ y, dependency style N R rank x = some y →
      ∃ rank', (rank', y) ∈ l₁

/-- The pass keeps the steps exactly where a timetable has them all before `max_t` and the peer of
every step is a rank. -/
theorem keepsSteps_iff (h : PureCompute scheduler N R) :
    KeepsSteps scheduler N R style ↔
      (∃ column, Timetable style (padded scheduler R) N R column ∧
        FitsIn (padded scheduler R) R column (maxT (padded scheduler R) R)) ∧
      PeersExist scheduler N R style := by
  have hemits : (∃ column, Timetable style (padded scheduler R) N R column ∧
      FitsIn (padded scheduler R) R column (maxT (padded scheduler R) R)) ↔
        ∀ rank < R, (autoAligned scheduler N R style rank).leaves =
          (scheduler rank).reduceOption := by
    rw [← emits_iff_timetable h.distinct]
    refine forall₂_congr fun rank _ => ?_
    rw [leaves_autoAligned, padSteps_padded]
  have hcomms : ∀ rank < R, ∀ x ∈ (autoAligned scheduler N R style rank).leaves,
      ((∀ comm ∈ commsForStep style N R rank x, comm.1 < R) ↔
        ∀ p ∈ peer style N R x, p < R) := fun rank hrank x hx =>
    commsForStep_lt_iff hrank (h.compute rank hrank x (mem_leaves_autoAligned h hrank hx))
  rw [hemits]
  constructor
  · rintro ⟨newSchedule, hok, hkept⟩
    obtain ⟨rfl, hlt⟩ := addSendRecv_eq_ok_iff.1 hok
    have hall : ∀ rank < R, (autoAligned scheduler N R style rank).leaves =
        (scheduler rank).reduceOption := fun rank hrank =>
      (filter_leaves_autoAlign h hrank).symm.trans (hkept rank hrank)
    refine ⟨hall, fun rank hrank x hx => ?_⟩
    rw [← hall rank hrank] at hx
    exact (hcomms rank hrank x hx).1 (hlt rank hrank x hx)
  · rintro ⟨hall, hpeers⟩
    refine ⟨_, addSendRecv_eq_ok_iff.2 ⟨rfl, fun rank hrank x hx => ?_⟩, fun rank hrank => ?_⟩
    · exact (hcomms rank hrank x hx).2 (hpeers rank hrank x (mem_leaves_autoAligned h hrank hx))
    · rw [filter_leaves_autoAlign h hrank, hall rank hrank]

/-- One rank and one stage, the forwards of 22 micro-batches and then their backwards. -/
def longCooldown : ℕ → List (Option LeafStep) := fun rank =>
  if rank = 0 then
    (List.range 22).map (fun m => some ⟨m, .fwd, 0⟩) ++
      (List.range 22).map fun m => some ⟨m, .bwd, 0⟩
  else []

theorem longCooldown_pure : PureCompute longCooldown 1 1 where
  stage := by decide
  compute := by decide
  once := by decide +kernel
  apart := fun rank hrank rank' hrank' _ _ _ => by omega

theorem longCooldown_executable : Executable longCooldown 1 1 .loop := by
  refine ⟨((longCooldown 0).reduceOption).map (0, ·), ?_, ?_⟩
  · intro rank hrank
    obtain rfl : rank = 0 := by omega
    exact forRank_self _
  · intro l₁ rank x l₂ horder y hy
    have hmem : (rank, x) ∈ ((longCooldown 0).reduceOption).map (0, ·) := by
      rw [horder]
      exact List.mem_append_right _ List.mem_cons_self
    obtain ⟨x, hx, heq⟩ := List.mem_map.1 hmem
    cases heq
    have hnone : ∀ x ∈ (longCooldown 0).reduceOption, dependency .loop 1 1 0 x = none := by decide
    rw [hnone x hx] at hy
    cases hy

/-- The columns of the backwards of `longCooldown` are two apart. -/
theorem longCooldown_column {column : ℕ → ℕ → ℕ}
    (h : Timetable .loop (padded longCooldown 1) 1 1 column) : 64 ≤ column 0 43 := by
  have hforwards : ∀ j < 23, j ≤ column 0 j := by
    intro j hj
    induction j with
    | zero => exact Nat.zero_le _
    | succ j ih =>
      have hlen : (padded longCooldown 1 0).length = 44 := by decide
      have := h.order 0 one_pos j (by omega)
      have := ih (by omega)
      omega
  have hstep : ∀ k < 22, (padded longCooldown 1 0)[22 + k]? = some (.step ⟨k, .bwd, 0⟩) := by
    decide
  have hcooldown : ∀ k < 22, (padSteps ((padded longCooldown 1 0).drop (22 + k))).countP
      (·.type = .fwd) = 0 := by decide
  have hbackwards : ∀ k < 22, 22 + 2 * k ≤ column 0 (22 + k) := by
    intro k hk
    induction k with
    | zero => exact hforwards 22 (by omega)
    | succ k ih =>
      have hpair : CooldownPair (padded longCooldown 1 0) (22 + k) :=
        ⟨_, _, hstep k (by omega), hstep (k + 1) hk, rfl, rfl, hcooldown k (by omega)⟩
      have hapart := h.rhythm 0 one_pos _ hpair
      have := ih (by omega)
      rw [← Nat.add_assoc]
      omega
  exact hbackwards 21 (by omega)

/-- The last backward of `longCooldown` is lost. -/
theorem not_keepsSteps : ¬ ∀ style scheduler N R, PureCompute scheduler N R →
    Executable scheduler N R style → KeepsSteps scheduler N R style := by
  intro hclaim
  have hpure := longCooldown_pure
  obtain ⟨newSchedule, hok, hkept⟩ :=
    hclaim .loop longCooldown 1 1 hpure longCooldown_executable
  obtain ⟨rfl, -⟩ := addSendRecv_eq_ok_iff.1 hok
  have hemits : ∀ rank < 1, ((alignAt .loop (padded longCooldown 1) 1 1
      (maxT (padded longCooldown 1) 1)).ranks rank).aligned.reduceOption =
        padSteps (padded longCooldown 1 rank) := by
    intro rank hrank
    rw [← leaves_autoAligned, ← filter_leaves_autoAlign hpure hrank, padSteps_padded]
    exact hkept rank hrank
  obtain ⟨column, htimetable, hfits⟩ := (emits_iff_timetable hpure.distinct _).1 hemits
  have hlast : (padded longCooldown 1 0)[43]? = some (.step ⟨21, .bwd, 0⟩) := by decide
  have hbound : maxT (padded longCooldown 1) 1 = 64 := by decide
  have hlt := hfits 0 one_pos 43 _ hlast
  rw [hbound] at hlt
  exact absurd (longCooldown_column htimetable) (Nat.not_le.2 hlt)

/-- One micro-batch on one rank. -/
def shortCooldown : ℕ → List (Option LeafStep) := fun rank =>
  if rank = 0 then [some ⟨0, .fwd, 0⟩, some ⟨0, .bwd, 0⟩] else []

theorem keepsSteps_iff_shortCooldown : KeepsSteps shortCooldown 1 1 .loop := by
  refine (keepsSteps_iff ⟨by decide, by decide, by decide,
    fun rank _ rank' _ _ _ _ => by omega⟩).2
      ⟨⟨fun _ j => j, ⟨fun _ _ _ _ => Nat.lt_succ_self _, ?_, ?_⟩, ?_⟩,
        by unfold PeersExist; decide⟩
  · rintro rank hrank j ⟨x, y, hx, hy, hxtype, -⟩
    obtain rfl : rank = 0 := by omega
    have hlen : (padded shortCooldown 1 0).length = 2 := by decide
    have hj := (List.getElem?_eq_some_iff.1 hy).1
    obtain rfl : j = 0 := by omega
    have hfirst : (padded shortCooldown 1 0)[0]? = some (.step ⟨0, .fwd, 0⟩) := by decide
    rw [hfirst] at hx
    cases hx
    cases hxtype
  · intro rank hrank j x y hx hdep
    obtain rfl : rank = 0 := by omega
    have hnone : ∀ x ∈ padSteps (padded shortCooldown 1 0), dependency .loop 1 1 0 x = none := by
      decide
    rw [hnone x (mem_padSteps hx)] at hdep
    cases hdep
  · intro rank hrank j x hx
    obtain rfl : rank = 0 := by omega
    have hlen : (padded shortCooldown 1 0).length = 2 := by decide
    have hbound : maxT (padded shortCooldown 1) 1 = 22 := by decide
    have hj := (List.getElem?_eq_some_iff.1 hx).1
    rw [hbound]
    show j < 22
    omega

end Schedule

end HyperParallel.Pipeline

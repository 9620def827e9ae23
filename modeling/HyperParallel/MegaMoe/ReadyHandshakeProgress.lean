import HyperParallel.MegaMoe.ReadyHandshakePuts
import Mathlib.Data.Finset.Max

/-!
# Runs of the ready handshake

* `exists_run`: steps that lower a measure lead to where there is none left;
* `advance`: the rank that is least far can go on, in every state the invariants allow;
* `safe_of_run`: every run whose generations fit in an `int32_t` is safe, and no rank is stuck;
* `not_safe_wrapped`: after the wrap of the generation a rank is ready before its peers.
-/

namespace HyperParallel.MegaMoe.Handshake

variable {ep : ℕ} {puts : ℕ → ℕ → ℕ → ℕ} {s s' s'' : Handshake} {a : HandshakeAction}
  {clean : Handshake → HandshakeAction → Prop} {r t u : ℕ}

theorem Run.trans (h : Run ep puts clean s s') (h' : Run ep puts clean s' s'') :
    Run ep puts clean s s'' := by
  induction h' with
  | refl => exact h
  | step _ hclean hstep ih => exact ih.step hclean hstep

theorem Run.mono {clean' : Handshake → HandshakeAction → Prop} (h : Run ep puts clean s s')
    (hmono : ∀ s a, clean s a → clean' s a) : Run ep puts clean' s s' := by
  induction h with
  | refl => exact .refl
  | step _ hclean hstep ih => exact ih.step (hmono _ _ hclean) hstep

/-- Both invariants. -/
structure Inv (ep : ℕ) (puts : ℕ → ℕ → ℕ → ℕ) (s : Handshake) : Prop where
  barrier : Barrier ep s
  puts : Puts ep puts s

theorem Inv.step (h : Inv ep puts s) (hfits : s.Fits a) (hstep : Step ep puts s a s') :
    Inv ep puts s' :=
  ⟨h.barrier.step hfits hstep, h.puts.step h.barrier hstep⟩

/-- Steps that lower a measure come to an end. -/
theorem exists_run {I P : Handshake → Prop} (m : Handshake → ℕ)
    (h : ∀ s, I s → P s ∨ ∃ s', Run ep puts Fits s s' ∧ I s' ∧ m s' < m s) (hs : I s) :
    ∃ s', Run ep puts Fits s s' ∧ I s' ∧ P s' := by
  induction hm : m s using Nat.strong_induction_on generalizing s with
  | _ n ih =>
    rcases h s hs with hP | ⟨s', hrun, hs', hlt⟩
    · exact ⟨s, .refl, hs, hP⟩
    · obtain ⟨s'', hrun', hs'', hP⟩ := ih _ (hm ▸ hlt) hs' rfl
      exact ⟨s'', hrun.trans hrun', hs'', hP⟩

theorem fits_of_ne (h : ∀ rank, a ≠ .enter rank) : s.Fits a := fun rank heq => absurd heq (h rank)

theorem single (hfits : s.Fits a) (h : Step ep puts s a s') : Run ep puts Fits s s' :=
  .step .refl hfits h

/-- The ranks are where they were. -/
structure Still (s s' : Handshake) : Prop where
  pc : s'.pc = s.pc
  entered : s'.entered = s.entered

/-- A rank whose tasks run can make the puts that are left. -/
theorem exists_issued (hs : Inv ep puts s) (hr : r < ep) (hpc : s.pc r = .ready) :
    ∃ s', Run ep puts Fits s s' ∧ (Inv ep puts s' ∧ Still s s') ∧
      ∀ t < ep, s'.issued (s'.entered r) r t = puts (s'.entered r) r t := by
  refine exists_run (fun s' => ∑ t ∈ Finset.range ep,
    (puts (s'.entered r) r t - s'.issued (s'.entered r) r t)) (fun s' hs' => ?_) ⟨hs, rfl, rfl⟩
  obtain ⟨hinv, hpc', hentered⟩ := hs'
  by_cases hall : ∀ t < ep, s'.issued (s'.entered r) r t = puts (s'.entered r) r t
  · exact Or.inl hall
  push Not at hall
  obtain ⟨t, ht, hne⟩ := hall
  have hlt := lt_of_le_of_ne (hinv.puts.issued_le _ _ _) hne
  have hstep : Step ep puts s' (.put r t) _ := .put hr ht (by rw [hpc', hpc]) hlt
  refine Or.inr ⟨_, single (fits_of_ne fun rank => by simp) hstep,
    ⟨hinv.step (fits_of_ne fun rank => by simp) hstep, hpc', hentered⟩, ?_⟩
  refine Finset.sum_lt_sum (fun v _ => Nat.sub_le_sub_left (le_bump _ _ _ _ _ _ _) _)
    ⟨t, Finset.mem_range.2 ht, ?_⟩
  show puts (s'.entered r) r t - bump s'.issued (s'.entered r) r t (s'.entered r) r t < _
  rw [bump, if_pos ⟨rfl, rfl, rfl⟩]
  omega

/-- The puts to a rank that are under way can arrive. -/
theorem exists_arrived (hs : Inv ep puts s) (n r : ℕ) :
    ∃ s', Run ep puts Fits s s' ∧ (Inv ep puts s' ∧ Still s s') ∧
      ∀ u < ep, s'.delivered n u r = s'.issued n u r := by
  refine exists_run (fun s' => ∑ u ∈ Finset.range ep, (s'.issued n u r - s'.delivered n u r))
    (fun s' hs' => ?_) ⟨hs, rfl, rfl⟩
  obtain ⟨hinv, hpc', hentered⟩ := hs'
  by_cases hall : ∀ u < ep, s'.delivered n u r = s'.issued n u r
  · exact Or.inl hall
  push Not at hall
  obtain ⟨u, hu, hne⟩ := hall
  have hlt := lt_of_le_of_ne (hinv.puts.delivered_le _ _ _) hne
  have hstep : Step ep puts s' (.deliver n u r) _ := .deliver hlt
  refine Or.inr ⟨_, single (fits_of_ne fun rank => by simp) hstep,
    ⟨hinv.step (fits_of_ne fun rank => by simp) hstep, hpc', hentered⟩, ?_⟩
  refine Finset.sum_lt_sum (fun v _ => Nat.sub_le_sub_left (le_bump _ _ _ _ _ _ _) _)
    ⟨u, Finset.mem_range.2 hu, ?_⟩
  show s'.issued n u r - bump s'.delivered n u r n u r < _
  rw [bump, if_pos ⟨rfl, rfl, rfl⟩]
  omega

theorem round_lt (hs : Barrier ep s) (hr : r < ep) {round : ℕ} (hpc : s.pc r = .signalling round) :
    round < ep := by
  cases round with
  | zero => exact (Nat.zero_le r).trans_lt hr
  | succ round =>
    exact Nat.lt_of_le_of_lt (Nat.succ_le_of_lt Nat.lt_two_pow_self)
      (hs.rounds r hr round (Or.inr hpc))

theorem phase_lt (hs : Barrier ep s) (hr : r < ep) : (s.pc r).phase ep < 2 * ep + 6 := by
  cases hpc : s.pc r with
  | signalling round =>
    have := round_lt hs hr hpc
    simp only [Pc.phase]
    omega
  | waiting round =>
    have := Nat.lt_two_pow_self.trans (hs.rounds r hr round (Or.inl hpc))
    simp only [Pc.phase]
    omega
  | _ =>
    simp only [Pc.phase]
    omega

/-- Of two ranks, the one that is less far is in an earlier call, or earlier in the same one. -/
theorem of_progress_le (hs : Barrier ep s) (ht : t < ep)
    (h : s.progress ep r ≤ s.progress ep t) : s.entered r < s.entered t ∨
      s.entered r = s.entered t ∧ (s.pc r).phase ep ≤ (s.pc t).phase ep := by
  have hphase := phase_lt hs ht
  unfold progress at h
  rcases lt_trichotomy (s.entered r) (s.entered t) with hlt | heq | hgt
  · exact Or.inl hlt
  · rw [heq] at h
    exact Or.inr ⟨heq, Nat.le_of_add_le_add_left h⟩
  · have := Nat.mul_le_mul_right (2 * ep + 6) (Nat.succ_le_of_lt hgt)
    rw [Nat.succ_mul] at this
    omega

/-- A rank goes on, and the others stay. -/
structure Advances (ep : ℕ) (puts : ℕ → ℕ → ℕ → ℕ) (r : ℕ) (s s' : Handshake) : Prop where
  run : Run ep puts Fits s s'
  inv : Inv ep puts s'
  further : s.progress ep r < s'.progress ep r
  others : ∀ t, t ≠ r → s'.progress ep t = s.progress ep t

theorem advances_of_step (hs : Inv ep puts s) (hfits : s.Fits a) (h : Step ep puts s a s')
    {pc : Pc} (hpc : s'.pc = Function.update s.pc r pc) (hentered : s'.entered = s.entered)
    (hlt : (s.pc r).phase ep < pc.phase ep) : Advances ep puts r s s' where
  run := single hfits h
  inv := hs.step hfits h
  further := by
    rw [progress, progress, hpc, hentered, Function.update_self]
    exact Nat.add_lt_add_left hlt _
  others t ht := by rw [progress, progress, hpc, hentered, Function.update_of_ne ht]

/-- Steps in which the ranks stay, before a rank goes on. -/
theorem Advances.of_still (h : Advances ep puts r s' s'') (hrun : Run ep puts Fits s s')
    (hstill : Still s s') : Advances ep puts r s s'' where
  run := hrun.trans h.run
  inv := h.inv
  further := by
    have := h.further
    rwa [progress, hstill.pc, hstill.entered] at this
  others t ht := by
    rw [h.others t ht, progress, hstill.pc, hstill.entered, progress]

/-- The rank that signals a round to another. -/
theorem exists_signaller (hr : r < ep) {round : ℕ} (hround : 2 ^ round < ep) :
    ∃ q < ep, (q + 2 ^ round) % ep = r := by
  refine ⟨(r + (ep - 2 ^ round)) % ep, Nat.mod_lt _ (by omega), ?_⟩
  rw [Nat.mod_add_mod, show r + (ep - 2 ^ round) + 2 ^ round = r + ep by omega, Nat.add_mod_right,
    Nat.mod_eq_of_lt hr]

/-- The rank that is least far does not wait for a signal in vain. -/
theorem signal_arrived (hs : Barrier ep s) (hr : r < ep) {round : ℕ} (hpc : s.pc r = .waiting round)
    (hleast : ∀ t < ep, s.progress ep r ≤ s.progress ep t) :
    s.generation r ≤ s.ready r (roundIndex round) := by
  have hround := hs.rounds r hr round (Or.inl hpc)
  obtain ⟨q, hq, hqr⟩ := exists_signaller hr hround
  rw [hs.slot r hr (by simp [hpc]) round hround q hq hqr,
    (hs.started r hr (by simp [hpc]) (by simp [hpc]) (by simp [hpc])).2, Nat.cast_le, lastSignal]
  rcases of_progress_le hs hq (hleast q hq) with hlt | ⟨heq, hphase⟩
  · split_ifs <;> omega
  · rw [if_pos]
    · exact heq.le
    · have hlt := Nat.lt_two_pow_self.trans hround
      rw [hpc] at hphase
      cases hqpc : s.pc q with
      | signalling j =>
        rw [hqpc] at hphase
        simp only [Pc.phase, Pc.sent] at hphase ⊢
        omega
      | waiting j =>
        rw [hqpc] at hphase
        simp only [Pc.phase, Pc.sent] at hphase ⊢
        omega
      | _ => exact hlt

/-- When the rank that is least far has made its puts, so has every rank in that call. -/
theorem all_issued_of_least (hs : Inv ep puts s) (hr : r < ep) (hpc : s.pc r = .draining)
    (hleast : ∀ t < ep, s.progress ep r ≤ s.progress ep t) :
    ∀ u < ep, s.issued (s.entered r) u r = puts (s.entered r) u r := by
  intro u hu
  have hpos := (hs.barrier.started r hr (by simp [hpc]) (by simp [hpc]) (by simp [hpc])).1
  refine hs.puts.all_issued _ u hpos hu ?_ r hr
  rcases of_progress_le hs.barrier hu (hleast u hu) with hlt | ⟨heq, hphase⟩
  · exact Or.inl hlt
  · refine Or.inr ⟨heq, ?_⟩
    rw [hpc] at hphase
    cases hupc : s.pc u with
    | signalling j =>
      have := round_lt hs.barrier hu hupc
      rw [hupc] at hphase
      simp only [Pc.phase] at hphase
      omega
    | waiting j =>
      have := Nat.lt_two_pow_self.trans (hs.barrier.rounds u hu j (Or.inl hupc))
      rw [hupc] at hphase
      simp only [Pc.phase] at hphase
      omega
    | draining => exact Or.inl rfl
    | idle => exact Or.inr (Or.inl rfl)
    | zeroed => exact Or.inr (Or.inr rfl)
    | _ =>
      rw [hupc] at hphase
      simp only [Pc.phase] at hphase
      omega

/-- The rank that is least far can go on. -/
theorem exists_advances (hs : Inv ep puts s) (hr : r < ep)
    (hleast : ∀ t < ep, s.progress ep r ≤ s.progress ep t)
    (hfits : s.pc r = .zeroed → s.entered r + 1 < 2 ^ 31) : ∃ s', Advances ep puts r s s' := by
  cases hpc : s.pc r with
  | fresh =>
    exact ⟨_, advances_of_step hs (fits_of_ne fun _ => by simp) (.zeroAll hr hpc) rfl rfl
      (by rw [hpc]; exact Nat.zero_lt_one)⟩
  | hostBarrier =>
    have hall : ∀ t < ep, s.pc t ≠ .fresh := by
      intro t ht hfresh
      have hzero := hs.barrier.unstarted r hr (Or.inr hpc)
      rcases of_progress_le hs.barrier ht (hleast t ht) with hlt | ⟨-, hphase⟩
      · rw [hs.barrier.unentered ht hfresh ht] at hlt
        exact absurd hlt (Nat.not_lt_zero _)
      · rw [hpc, hfresh] at hphase
        exact absurd hphase (by simp [Pc.phase])
    exact ⟨_, advances_of_step hs (fits_of_ne fun _ => by simp) (.passHostBarrier hr hpc hall) rfl
      rfl (by rw [hpc]; simp only [Pc.phase]; omega)⟩
  | zeroed =>
    have hfit : s.Fits (.enter r) := fun rank heq => by
      obtain rfl : r = rank := by simpa using heq
      exact hfits hpc
    have hstep : Step ep puts s (.enter r) _ := .enter hr hpc
    refine ⟨_, single hfit hstep, hs.step hfit hstep, ?_, fun t ht => ?_⟩
    · simp only [progress, goTo, write, Function.update_self, hpc, Pc.phase, Nat.succ_mul]
      omega
    · simp [progress, goTo, write, Function.update_of_ne ht]
  | signalling round =>
    by_cases hround : 2 ^ round < ep
    · exact ⟨_, advances_of_step hs (fits_of_ne fun _ => by simp) (.signal hr hpc hround) rfl rfl
        (by rw [hpc]; simp only [Pc.phase]; omega)⟩
    · refine ⟨_, advances_of_step hs (fits_of_ne fun _ => by simp) (.publish hr hpc hround) rfl rfl
        ?_⟩
      have := round_lt hs.barrier hr hpc
      rw [hpc]
      simp only [Pc.phase]
      omega
  | waiting round =>
    exact ⟨_, advances_of_step hs (fits_of_ne fun _ => by simp)
      (.wait hr hpc (signal_arrived hs.barrier hr hpc hleast)) rfl rfl
      (by rw [hpc]; simp only [Pc.phase]; omega)⟩
  | ready =>
    obtain ⟨s', hrun, ⟨hinv, hstill⟩, hall⟩ := exists_issued hs hr hpc
    have hpc' : s'.pc r = .ready := by rw [hstill.pc, hpc]
    exact ⟨_, (advances_of_step hinv (fits_of_ne fun _ => by simp) (.finishTasks hr hpc' hall) rfl
      rfl (by rw [hpc']; simp only [Pc.phase]; omega)).of_still hrun hstill⟩
  | draining =>
    obtain ⟨s', hrun, ⟨hinv, hstill⟩, hall⟩ := exists_arrived hs (s.entered r) r
    have hpc' : s'.pc r = .draining := by rw [hstill.pc, hpc]
    have hissued := all_issued_of_least hinv hr hpc' (by
      simpa only [progress, hstill.pc, hstill.entered] using hleast)
    have hcall : s'.call r = s'.entered r := by simp [call, hpc', Pc.BeforeEnter]
    have hcounted : ∑ u ∈ Finset.range ep, puts (s'.entered r) u r ≤ s'.counter r := by
      rw [hinv.puts.counted r hr (by simp [hpc']), hcall]
      refine Finset.sum_le_sum fun u hu => ?_
      rw [← hissued u (Finset.mem_range.1 hu), hstill.entered, hall u (Finset.mem_range.1 hu)]
    exact ⟨_, (advances_of_step hinv (fits_of_ne fun _ => by simp) (.finish hr hpc' hcounted) rfl
      rfl (by rw [hpc']; simp only [Pc.phase]; omega)).of_still hrun hstill⟩
  | idle =>
    exact ⟨_, advances_of_step hs (fits_of_ne fun _ => by simp) (.zero hr hpc) rfl rfl
      (by rw [hpc]; simp only [Pc.phase]; omega)⟩

/-- From every state the invariants allow, the others can catch up with a rank. -/
theorem exists_least (hs : Inv ep puts s) (hr : r < ep) :
    ∃ s', Run ep puts Fits s s' ∧ (Inv ep puts s' ∧ s'.progress ep r = s.progress ep r) ∧
      ∀ t < ep, s'.progress ep r ≤ s'.progress ep t := by
  refine exists_run (fun s' => ∑ t ∈ Finset.range ep, (s.progress ep r - s'.progress ep t))
    (fun s' ⟨hinv, heq⟩ => ?_) ⟨hs, rfl⟩
  obtain ⟨t, ht, hleast⟩ := Finset.exists_min_image (Finset.range ep) (s'.progress ep ·)
    ⟨r, Finset.mem_range.2 hr⟩
  rw [Finset.mem_range] at ht
  have hleast : ∀ u < ep, s'.progress ep t ≤ s'.progress ep u := fun u hu =>
    hleast u (Finset.mem_range.2 hu)
  rcases (hleast r hr).lt_or_eq with hlt | hsame
  · -- the rank that is least far goes on, and stays in the calls of `r`
    obtain ⟨s'', hadvances⟩ := exists_advances hinv ht hleast fun hpc => by
      rcases of_progress_le hinv.barrier hr hlt.le with hcall | ⟨hcall, hphase⟩
      · exact lt_of_le_of_lt (Nat.succ_le_of_lt hcall) (hinv.barrier.fits r hr)
      · have hbound := phase_lt hinv.barrier hr
        rw [hpc] at hphase
        unfold progress at hlt
        rw [hcall, hpc] at hlt
        have hlast : Pc.phase ep .zeroed = 2 * ep + 5 := rfl
        omega
    refine Or.inr ⟨s'', hadvances.run, ⟨hadvances.inv, ?_⟩, ?_⟩
    · rw [hadvances.others r fun h => hlt.ne (by rw [h]), heq]
    · refine Finset.sum_lt_sum (fun u _ => Nat.sub_le_sub_left ?_ _) ⟨t, Finset.mem_range.2 ht, ?_⟩
      · by_cases hut : u = t
        · rw [hut]
          exact hadvances.further.le
        · exact (hadvances.others u hut).ge
      · have := hadvances.further
        omega
  · exact Or.inl fun u hu => hsame ▸ hleast u hu

/-- No rank is stuck. -/
theorem canProceed (hs : Inv ep puts s) (hr : r < ep) : s.CanProceed ep puts r := by
  obtain ⟨s', hrun, ⟨hinv, heq⟩, hleast⟩ := exists_least hs hr
  have hrun := hrun.mono fun _ _ (_ : Fits _ _) => trivial
  by_cases hpc : s'.pc r = .zeroed
  · have hstep : Step ep puts s' (.enter r) _ := .enter hr hpc
    refine ⟨_, hrun.step trivial hstep, heq ▸ ?_⟩
    simp only [progress, goTo, write, Function.update_self, hpc, Pc.phase, Nat.succ_mul]
    omega
  · obtain ⟨s'', hadvances⟩ := exists_advances hinv hr hleast fun h => absurd h hpc
    exact ⟨s'', hrun.trans (hadvances.run.mono fun _ _ _ => trivial), heq ▸ hadvances.further⟩

theorem inv_run (hs : Inv ep puts s) (h : Run ep puts Fits s s') : Inv ep puts s' := by
  induction h with
  | refl => exact hs
  | step _ hclean hstep ih => exact ih.step hclean hstep

theorem inv_initial (ep : ℕ) (puts : ℕ → ℕ → ℕ → ℕ) (generation : ℕ → ℤ) (ready : ℕ → ℕ → ℤ)
    (counter : ℕ → ℕ) : Inv ep puts (initial generation ready counter) :=
  ⟨barrier_initial _ _ _ _, puts_initial _ _ _ _ _⟩

/-- Every state that a run reaches, in which the generations fit in an `int32_t`, is safe, and every
rank can go on from it. -/
theorem safe_of_run (ep : ℕ) (puts : ℕ → ℕ → ℕ → ℕ) (generation : ℕ → ℤ) (ready : ℕ → ℕ → ℤ)
    (counter : ℕ → ℕ) (s : Handshake)
    (h : Run ep puts Fits (initial generation ready counter) s) :
    Safe ep puts s ∧ ∀ r < ep, s.CanProceed ep puts r :=
  have hs := inv_run (inv_initial ep puts generation ready counter) h
  ⟨safe_of_invariants hs.barrier hs.puts, fun _ hr => canProceed hs hr⟩

/-- In every call rank 0 makes one put to rank 1. -/
def onePut (_ source target : ℕ) : ℕ := if source = 0 ∧ target = 1 then 1 else 0

/-- Both ranks make a call, with its put, and rank 0 enters the next. -/
theorem exists_secondCall : ∃ s : Handshake,
    Run 2 onePut Fits (initial (fun _ => 5) (fun _ _ => 6) fun _ => 7) s ∧
      s.entered 0 = 2 ∧ s.entered 1 = 1 ∧ s.pc 1 = .zeroed ∧ s.delivered 1 0 1 = 1 := by
  have h₀ : 0 < 2 := by decide
  have h₁ : 1 < 2 := by decide
  have henter : ∀ {s : Handshake} {rank : ℕ}, s.entered rank + 1 < 2 ^ 31 →
      Fits s (.enter rank) := by
    rintro s rank h _ ⟨⟩
    exact h
  have hstart : Run 2 onePut Fits (initial (fun _ => 5) (fun _ _ => 6) fun _ => 7) _ :=
    (((Run.refl.step (fits_of_ne fun _ => by simp) (.zeroAll h₀ rfl)).step
      (fits_of_ne fun _ => by simp) (.zeroAll h₁ rfl)).step
      (fits_of_ne fun _ => by simp) (.passHostBarrier h₀ rfl (by decide))).step
      (fits_of_ne fun _ => by simp) (.passHostBarrier h₁ rfl (by decide))
  have hready := ((((((((hstart.step (henter (by decide)) (.enter h₀ rfl)).step
    (henter (by decide)) (.enter h₁ rfl)).step
    (fits_of_ne fun _ => by simp) (.signal h₀ rfl (by decide))).step
    (fits_of_ne fun _ => by simp) (.signal h₁ rfl (by decide))).step
    (fits_of_ne fun _ => by simp) (.wait h₀ rfl (by decide))).step
    (fits_of_ne fun _ => by simp) (.wait h₁ rfl (by decide))).step
    (fits_of_ne fun _ => by simp) (.publish h₀ rfl (by decide))).step
    (fits_of_ne fun _ => by simp) (.publish h₁ rfl (by decide)))
  have hdone := (((((((hready.step
    (fits_of_ne fun _ => by simp) (.put h₀ h₁ rfl (by decide))).step
    (fits_of_ne fun _ => by simp) (.finishTasks h₀ rfl (by decide))).step
    (fits_of_ne fun _ => by simp) (.finishTasks h₁ rfl (by decide))).step
    (fits_of_ne fun _ => by simp)
      (show Step 2 onePut _ (.deliver 1 0 1) _ from .deliver (by decide))).step
    (fits_of_ne fun _ => by simp) (.finish h₀ rfl (by decide))).step
    (fits_of_ne fun _ => by simp) (.finish h₁ rfl (by decide))).step
    (fits_of_ne fun _ => by simp) (.zero h₀ rfl)).step
    (fits_of_ne fun _ => by simp) (.zero h₁ rfl)
  exact ⟨_, hdone.step (henter (by decide)) (.enter h₀ rfl), rfl, rfl, rfl, rfl⟩

/-- The second call of a rank, behind a call with a put. -/
theorem safe_of_run_secondCall : ∃ s : Handshake, s.entered 0 = 2 ∧ s.entered 1 = 1 ∧
    s.delivered 1 0 1 = 1 ∧ Safe 2 onePut s ∧ ∀ r < 2, s.CanProceed 2 onePut r := by
  obtain ⟨s, hrun, h₀, h₁, -, hput⟩ := exists_secondCall
  exact ⟨s, h₀, h₁, hput, safe_of_run 2 onePut (fun _ => 5) (fun _ _ => 6) (fun _ => 7) s hrun⟩

/-! ### The wrap of the generation -/

/-- Two ranks without puts are between their calls. -/
structure Level (n : ℕ) (s : Handshake) : Prop where
  pc : ∀ r < 2, s.pc r = .zeroed
  entered : ∀ r < 2, s.entered r = n
  generation : ∀ r < 2, s.ready r (generationIndex 2) = toInt32 n
  slot : ∀ r < 2, s.ready r (roundIndex 0) = toInt32 n
  issued : ∀ n r t, s.issued n r t = 0

theorem toInt32_succ (n : ℕ) : toInt32 (toInt32 n + 1) = toInt32 (n + 1 : ℕ) := by
  rw [toInt32, toInt32, Int.bmod_add_bmod, toInt32, Nat.cast_succ]

theorem Run.cons (h : Step ep puts s a s') (h' : Run ep puts (fun _ _ => True) s' s'') :
    Run ep puts (fun _ _ => True) s s'' :=
  (Run.refl.step trivial h).trans h'

theorem level_succ {n : ℕ} (h : Level n s) : ∃ s',
    Run 2 (fun _ _ _ => 0) (fun _ _ => True) s s' ∧ Level (n + 1) s' := by
  have hp₀ := h.pc 0 (by decide)
  have hp₁ := h.pc 1 (by decide)
  have hg₀ : s.ready 0 32 = toInt32 n := h.generation 0 (by decide)
  have hg₁ : s.ready 1 32 = toInt32 n := h.generation 1 (by decide)
  have hround : roundIndex 0 = 0 := rfl
  have hgeneration : generationIndex 2 = 32 := rfl
  have h₀ : 0 < 2 := by decide
  have h₁ : 1 < 2 := by decide
  -- both enter, both signal, both pass the one round, both finish, both zero
  refine ⟨_, .cons (.enter h₀ hp₀) (.cons (.enter h₁ (by simp [goTo, write, hp₁]))
    (.cons (.signal h₀ (by simp [goTo, write]; rfl) (by decide))
    (.cons (.signal h₁ (by simp [goTo, write]; rfl) (by decide))
    (.cons (.wait h₀ (by simp [goTo, write]; rfl) ?_)
    (.cons (.wait h₁ (by simp [goTo, write]; rfl) ?_)
    (.cons (.publish h₀ (by simp [goTo, write]; rfl) (by decide))
    (.cons (.publish h₁ (by simp [goTo, write]; rfl) (by decide))
    (.cons (.finishTasks h₀ (by simp [goTo, write]) ?_)
    (.cons (.finishTasks h₁ (by simp [goTo, write]) ?_)
    (.cons (.finish h₀ (by simp [goTo, write]) (by simp))
    (.cons (.finish h₁ (by simp [goTo, write]) (by simp))
    (.cons (.zero h₀ (by simp [goTo, write]))
    (.cons (.zero h₁ (by simp [goTo, write])) .refl))))))))))))), ?_⟩
  · simp [goTo, write, hg₀, hg₁, hround, hgeneration]
  · simp [goTo, write, hg₀, hg₁, hround, hgeneration]
  · simp [goTo, write, h.issued]
  · simp [goTo, write, h.issued]
  · refine ⟨fun r hr => ?_, fun r hr => ?_, fun r hr => ?_, fun r hr => ?_, h.issued⟩
    all_goals obtain rfl | rfl : r = 0 ∨ r = 1 := by omega
    all_goals simp [goTo, write, hg₀, hg₁, hround, hgeneration, h.entered, toInt32_succ,
      -Nat.cast_add]

/-- Every number of calls can be made. -/
theorem exists_level (n : ℕ) : ∃ s, Run 2 (fun _ _ _ => 0) (fun _ _ => True)
    (initial (fun _ => 0) (fun _ _ => 0) fun _ => 0) s ∧ Level n s := by
  induction n with
  | zero =>
    refine ⟨_, .cons (.zeroAll (show 0 < 2 by decide) rfl) (.cons (.zeroAll (show 1 < 2 by decide)
      rfl) (.cons (.passHostBarrier (show 0 < 2 by decide) rfl (by decide)) (.cons
      (.passHostBarrier (show 1 < 2 by decide) rfl (by decide)) .refl))), ?_⟩
    refine ⟨fun r hr => ?_, fun r hr => ?_, fun r hr => ?_, fun r hr => ?_, fun _ _ _ => rfl⟩
    all_goals obtain rfl | rfl : r = 0 ∨ r = 1 := by omega
    all_goals rfl
  | succ n ih =>
    obtain ⟨s, hrun, hlevel⟩ := ih
    obtain ⟨s', hrun', hlevel'⟩ := level_succ hlevel
    exact ⟨s', hrun.trans hrun', hlevel'⟩

/-- In the call in which the generation wraps, the old word of a slot is above the new generation,
and a rank is ready before the other has entered the call. -/
theorem not_safe_wrapped : ¬ ∀ (ep : ℕ) (puts : ℕ → ℕ → ℕ → ℕ) (generation : ℕ → ℤ)
    (ready : ℕ → ℕ → ℤ) (counter : ℕ → ℕ) (s : Handshake), 2 ≤ ep →
    Run ep puts (fun _ _ => True) (initial generation ready counter) s → Safe ep puts s := by
  intro hsafe
  obtain ⟨s, hrun, h⟩ := exists_level (2 ^ 31 - 1)
  have hround : roundIndex 0 = 0 := rfl
  have hgeneration : generationIndex 2 = 32 := rfl
  have hg₀ : s.ready 0 32 = 2 ^ 31 - 1 := h.generation 0 (by decide)
  have hs₀ : s.ready 0 0 = 2 ^ 31 - 1 := h.slot 0 (by decide)
  have hwrap : toInt32 2147483648 = -2147483648 := by decide
  have h₀ : 0 < 2 := by decide
  have hsafe := hsafe 2 (fun _ _ _ => 0) _ _ _ _ le_rfl (hrun.trans
    (.cons (.enter h₀ (h.pc 0 h₀))
    (.cons (.signal h₀ (by simp [goTo, write]; rfl) (by decide))
    (.cons (.wait h₀ (by simp [goTo, write]; rfl)
      (by simp [goTo, write, hg₀, hs₀, hround, hgeneration, hwrap]))
    (.cons (.publish h₀ (by simp [goTo, write]; rfl) (by decide)) .refl)))))
  have hle := hsafe.barrier 0 h₀ (Or.inl (by simp [goTo])) 1 (by decide)
  simp [goTo, write, h.entered] at hle

end HyperParallel.MegaMoe.Handshake
